import Mathlib.Data.List.Basic

namespace LineaSgxProver.Library

variable {α : Type} {d : α}

end LineaSgxProver.Library
