import LineaSgxProver.Machine
import Mathlib.Data.List.Basic

namespace LineaSgxProver.Linea

structure Log where
  topics : List SH256
  transactionHash : SH256

structure BatchTask where
  dataHash : SH256
  blocks : List UInt64
  deriving DecidableEq, Repr

def rangeInclusive (startBlock endBlock : UInt64) : List UInt64 :=
  (List.range' startBlock.toNat (endBlock.toNat + 1 - startBlock.toNat)).map UInt64.ofNat

/-- `(start_block..=end_block).collect()`, which panics with `capacity overflow` where the blocks take more
bytes than an `isize` can count. -/
def collectBlocks (startBlock endBlock : UInt64) : Option (List UInt64) :=
  if endBlock.toNat + 1 - startBlock.toNat < 2 ^ 60 then some (rangeInclusive startBlock endBlock) else none

namespace BatchTask

def default : BatchTask := ⟨0, []⟩

/-- `submit_poe` takes the last block of a task for its batch id, and panics when there is none. -/
def batchId (task : BatchTask) : Option UInt64 := task.blocks.getLast?

end BatchTask

namespace BatchTaskSubscriber

structure Handler where
  task : BatchTask
  tmpTx : Option SH256

def step (h : Handler) (log : Log) : Option Handler := do
  let (currentTx, tmpTx) := match h.tmpTx with
    | some hash => (hash, h.tmpTx)
    | none => (log.transactionHash, some log.transactionHash)
  let startBlock ← log.topics[2]?
  let endBlock ← log.topics[3]?
  if log.transactionHash ≠ currentTx then
    let dataHash ← log.topics[1]?
    let startBlock ← SU256.asU64 startBlock
    let endBlock ← SU256.asU64 endBlock
    let blocks ← collectBlocks startBlock endBlock
    some ⟨⟨dataHash, blocks⟩, some log.transactionHash⟩
  else
    let dataHash ← log.topics[1]?
    let startBlock ← SU256.asU64 startBlock
    let endBlock ← SU256.asU64 endBlock
    let blocks ← collectBlocks startBlock endBlock
    some ⟨{ dataHash := dataHash, blocks := blocks }, tmpTx⟩

def handler (logs : List Log) : Option (List BatchTask) := do
  let h ← logs.foldlM step ⟨BatchTask.default, none⟩
  some [h.task]

end BatchTaskSubscriber

/-- `DataSubmitted(bytes32,uint256,uint256)`, whose three arguments are topics of its log. -/
structure DataSubmitted where
  dataHash : SH256
  startBlock : SU256
  endBlock : SU256
  transactionHash : SH256
  deriving DecidableEq, Repr

namespace DataSubmitted

def log (eventSig : SH256) (e : DataSubmitted) : Log :=
  ⟨[eventSig, e.dataHash, e.startBlock, e.endBlock], e.transactionHash⟩

/-- The task holds the event's data hash and its inclusive range of blocks. -/
def Describes (e : DataSubmitted) (task : BatchTask) : Prop :=
  task.dataHash = e.dataHash ∧
    task.blocks.map UInt64.toNat =
      List.range' e.startBlock.toNat (e.endBlock.toNat + 1 - e.startBlock.toNat)

/-- Every event reaches the callback, which is called for nothing else. -/
def Delivered (events : List DataSubmitted) (calls : Option (List BatchTask)) : Prop :=
  ∃ tasks, calls = some tasks ∧ (∀ e ∈ events, ∃ task ∈ tasks, e.Describes task) ∧
    ∀ task ∈ tasks, task.blocks ≠ [] ∧ ∃ e ∈ events, e.Describes task

/-- A range that is not empty, whose ends are block numbers and whose blocks fit a vector. -/
structure InRange (e : DataSubmitted) : Prop where
  ordered : e.startBlock.toNat ≤ e.endBlock.toNat
  word : e.endBlock.toNat < 2 ^ 64
  fits : e.endBlock.toNat + 1 - e.startBlock.toNat < 2 ^ 60

def SameBatch (e e' : DataSubmitted) : Prop :=
  e.dataHash = e'.dataHash ∧ e.startBlock = e'.startBlock ∧ e.endBlock = e'.endBlock

theorem Describes.eq {e : DataSubmitted} {t u : BatchTask} (ht : e.Describes t) (hu : e.Describes u) :
    t = u := by
  have hblocks : t.blocks = u.blocks :=
    List.map_injective_iff.mpr (fun _ _ h => UInt64.toNat_inj.mp h) (ht.2.trans hu.2.symm)
  obtain ⟨d, bs⟩ := t
  obtain ⟨d', bs'⟩ := u
  obtain rfl : d = d' := ht.1.trans hu.1.symm
  obtain rfl : bs = bs' := hblocks
  rfl

theorem describes_ends {e : DataSubmitted} {task : BatchTask} (h : e.Describes task)
    (hne : task.blocks ≠ []) : (task.blocks.map UInt64.toNat).head? = some e.startBlock.toNat ∧
      (task.blocks.map UInt64.toNat).getLast? = some e.endBlock.toNat := by
  have hlen : e.endBlock.toNat + 1 - e.startBlock.toNat ≠ 0 := by
    intro hzero
    have hnil := h.2
    rw [hzero, List.range'_zero, List.map_eq_nil_iff] at hnil
    exact hne hnil
  rw [h.2]
  constructor
  · rw [List.head?_range', if_neg hlen]
  · rw [List.getLast?_range', if_neg hlen]
    congr 1
    omega

end DataSubmitted

section Range

theorem rangeInclusive_toNat (startBlock endBlock : UInt64) :
    (rangeInclusive startBlock endBlock).map UInt64.toNat =
      List.range' startBlock.toNat (endBlock.toNat + 1 - startBlock.toNat) := by
  have hend : endBlock.toNat < 2 ^ 64 := endBlock.toNat_lt
  rw [rangeInclusive, List.map_map]
  conv_rhs => rw [← List.map_id (List.range' _ _)]
  apply List.map_congr_left
  intro n hn
  have hlt := List.mem_range'_1.mp hn
  simp only [Function.comp_apply, UInt64.toNat_ofNat', id_eq]
  apply Nat.mod_eq_of_lt
  omega

theorem collectBlocks_eq_some {startBlock endBlock : UInt64} {blocks : List UInt64} :
    collectBlocks startBlock endBlock = some blocks ↔
      endBlock.toNat + 1 - startBlock.toNat < 2 ^ 60 ∧ blocks = rangeInclusive startBlock endBlock := by
  rw [collectBlocks]
  split_ifs with h
  · rw [Option.some.injEq, and_iff_right h]
    exact eq_comm
  · exact iff_of_false (fun hnone => nomatch hnone) fun hfits => h hfits.1

theorem rangeInclusive_ne_nil {startBlock endBlock : UInt64} :
    rangeInclusive startBlock endBlock ≠ [] ↔ startBlock.toNat ≤ endBlock.toNat := by
  rw [rangeInclusive, Ne, List.map_eq_nil_iff, List.range'_eq_nil_iff]
  omega

end Range

namespace DataSubmitted

def task (e : DataSubmitted) : Option BatchTask := do
  let startBlock ← SU256.asU64 e.startBlock
  let endBlock ← SU256.asU64 e.endBlock
  let blocks ← collectBlocks startBlock endBlock
  some ⟨e.dataHash, blocks⟩

theorem task_eq_some {e : DataSubmitted} {t : BatchTask} : e.task = some t ↔
    ∃ startBlock endBlock : UInt64, e.startBlock.toNat = startBlock.toNat ∧ e.endBlock.toNat = endBlock.toNat ∧
      endBlock.toNat + 1 - startBlock.toNat < 2 ^ 60 ∧ t = ⟨e.dataHash, rangeInclusive startBlock endBlock⟩ := by
  unfold task
  constructor
  · intro h
    obtain ⟨startBlock, hstart, h⟩ := Option.bind_eq_some_iff.mp h
    obtain ⟨endBlock, hend, h⟩ := Option.bind_eq_some_iff.mp h
    obtain ⟨blocks, hblocks, h⟩ := Option.bind_eq_some_iff.mp h
    obtain ⟨hfits, rfl⟩ := collectBlocks_eq_some.mp hblocks
    exact ⟨startBlock, endBlock, SU256.asU64_eq_some.mp hstart, SU256.asU64_eq_some.mp hend, hfits,
      (Option.some.inj h).symm⟩
  · rintro ⟨startBlock, endBlock, hstart, hend, hfits, rfl⟩
    rw [SU256.asU64_eq_some.mpr hstart, SU256.asU64_eq_some.mpr hend]
    change (collectBlocks startBlock endBlock).bind _ = _
    rw [collectBlocks_eq_some.mpr ⟨hfits, rfl⟩]
    rfl

theorem describes_task {e : DataSubmitted} {t : BatchTask} (h : e.task = some t) : e.Describes t := by
  obtain ⟨startBlock, endBlock, hstart, hend, -, rfl⟩ := task_eq_some.mp h
  refine ⟨rfl, ?_⟩
  rw [rangeInclusive_toNat, hstart, hend]

theorem inRange_of_task {e : DataSubmitted} {t : BatchTask} (h : e.task = some t)
    (hne : t.blocks ≠ []) : e.InRange := by
  obtain ⟨startBlock, endBlock, hstart, hend, hfits, rfl⟩ := task_eq_some.mp h
  refine ⟨?_, ?_, ?_⟩
  · rw [hstart, hend]
    exact rangeInclusive_ne_nil.mp hne
  · rw [hend]
    exact endBlock.toNat_lt
  · rw [hstart, hend]
    exact hfits

theorem InRange.task {e : DataSubmitted} (h : e.InRange) :
    ∃ t, e.task = some t ∧ t.blocks ≠ [] := by
  obtain ⟨hle, hend, hfits⟩ := h
  have hstartWord : e.startBlock.toNat = (UInt64.ofNat e.startBlock.toNat).toNat := by
    rw [UInt64.toNat_ofNat', Nat.mod_eq_of_lt (by omega)]
  have hendWord : e.endBlock.toNat = (UInt64.ofNat e.endBlock.toNat).toNat := by
    rw [UInt64.toNat_ofNat', Nat.mod_eq_of_lt hend]
  refine ⟨_, task_eq_some.mpr ⟨_, _, hstartWord, hendWord, ?_, rfl⟩, ?_⟩
  · rw [← hstartWord, ← hendWord]
    exact hfits
  · rw [rangeInclusive_ne_nil, ← hstartWord, ← hendWord]
    exact hle

/-- Tasks that are not empty tell their batches apart. -/
theorem sameBatch_of_describes {e e' : DataSubmitted} {t : BatchTask} (h : e.Describes t)
    (h' : e'.Describes t) (hne : t.blocks ≠ []) : e.SameBatch e' := by
  obtain ⟨hfirst, hlast⟩ := describes_ends h hne
  obtain ⟨hfirst', hlast'⟩ := describes_ends h' hne
  refine ⟨h.1.symm.trans h'.1, BitVec.eq_of_toNat_eq ?_, BitVec.eq_of_toNat_eq ?_⟩
  · exact Option.some.inj (hfirst.symm.trans hfirst')
  · exact Option.some.inj (hlast.symm.trans hlast')

theorem SameBatch.describes {e e' : DataSubmitted} (h : e.SameBatch e') {t : BatchTask}
    (ht : e.Describes t) : e'.Describes t := by
  obtain ⟨hhash, hstart, hend⟩ := h
  unfold Describes at *
  rwa [hhash, hstart, hend] at ht

end DataSubmitted

namespace BatchTaskSubscriber

open DataSubmitted

variable (eventSig : SH256)

/-- Whichever branch a log takes, its own task replaces the one before. -/
theorem step_log (h : Handler) (e : DataSubmitted) :
    step h (e.log eventSig) = e.task.map fun t => ⟨t, some e.transactionHash⟩ := by
  obtain ⟨t, tmpTx⟩ := h
  have htask : (e.task.map fun t : BatchTask => (⟨t, some e.transactionHash⟩ : Handler)) =
      (SU256.asU64 e.startBlock).bind fun startBlock => (SU256.asU64 e.endBlock).bind fun endBlock =>
        (collectBlocks startBlock endBlock).bind fun blocks =>
          some ⟨⟨e.dataHash, blocks⟩, some e.transactionHash⟩ := by
    unfold DataSubmitted.task
    cases SU256.asU64 e.startBlock with
    | none => rfl
    | some startBlock =>
      cases SU256.asU64 e.endBlock with
      | none => rfl
      | some endBlock =>
        change Option.map _ ((collectBlocks startBlock endBlock).bind _) =
          (collectBlocks startBlock endBlock).bind _
        cases collectBlocks startBlock endBlock <;> rfl
  rw [htask]
  unfold step DataSubmitted.log
  cases tmpTx with
  | none => simp
  | some hash =>
    by_cases htx : e.transactionHash = hash
    · simp [htx]
    · simp [htx]

theorem foldlM_step (events : List DataSubmitted) (h : Handler) :
    ((events.map (log eventSig)).foldlM step h).map Handler.task =
      (events.mapM DataSubmitted.task).map fun tasks => tasks.getLastD h.task := by
  induction events generalizing h with
  | nil => rfl
  | cons e events ih =>
    rw [List.map_cons, List.foldlM_cons, step_log, List.mapM_cons]
    cases e.task with
    | none => rfl
    | some t =>
      have hrest := ih ⟨t, some e.transactionHash⟩
      change ((events.map (log eventSig)).foldlM step _).map Handler.task = _
      rw [hrest]
      cases events.mapM DataSubmitted.task with
      | none => rfl
      | some tasks => exact congrArg some (List.getLastD_cons ..).symm

/-- The callback is called once, with the task of the last log. -/
theorem handler_log (events : List DataSubmitted) :
    handler (events.map (log eventSig)) =
      (events.mapM DataSubmitted.task).map fun tasks => [tasks.getLastD BatchTask.default] := by
  have hloop := foldlM_step eventSig events ⟨BatchTask.default, none⟩
  unfold handler
  cases hrun : (events.map (log eventSig)).foldlM step ⟨BatchTask.default, none⟩ with
  | none =>
    rw [hrun] at hloop
    rw [Option.map_eq_none_iff.mp hloop.symm]
    rfl
  | some h =>
    rw [hrun] at hloop
    obtain ⟨tasks, htasks, hlast⟩ := Option.map_eq_some_iff.mp hloop.symm
    rw [htasks, Option.map_some, hlast]
    rfl

theorem mapM_task {events : List DataSubmitted} {tasks : List BatchTask}
    (h : events.mapM DataSubmitted.task = some tasks) :
    (∀ e ∈ events, ∃ t ∈ tasks, e.task = some t) ∧ ∀ t ∈ tasks, ∃ e ∈ events, e.task = some t := by
  induction events generalizing tasks with
  | nil =>
    obtain rfl := Option.some.inj h
    simp
  | cons e events ih =>
    rw [List.mapM_cons] at h
    obtain ⟨t, ht, h⟩ := Option.bind_eq_some_iff.mp h
    obtain ⟨ts, hts, h⟩ := Option.bind_eq_some_iff.mp h
    obtain rfl := Option.some.inj h
    obtain ⟨hevents, htasks⟩ := ih hts
    constructor
    · intro e' he'
      rcases List.mem_cons.mp he' with rfl | he'
      · exact ⟨t, List.mem_cons_self .., ht⟩
      · obtain ⟨t', hmem, ht'⟩ := hevents e' he'
        exact ⟨t', List.mem_cons_of_mem _ hmem, ht'⟩
    · intro t' ht'
      rcases List.mem_cons.mp ht' with rfl | ht'
      · exact ⟨e, List.mem_cons_self .., ht⟩
      · obtain ⟨e', hmem, he'⟩ := htasks t' ht'
        exact ⟨e', List.mem_cons_of_mem _ hmem, he'⟩

theorem mapM_inRange {events : List DataSubmitted} (h : ∀ e ∈ events, e.InRange) :
    ∃ tasks, events.mapM DataSubmitted.task = some tasks := by
  induction events with
  | nil => exact ⟨[], rfl⟩
  | cons e events ih =>
    obtain ⟨t, ht, _⟩ := (h e (List.mem_cons_self ..)).task
    obtain ⟨ts, hts⟩ := ih fun e' he' => h e' (List.mem_cons_of_mem _ he')
    exact ⟨t :: ts, by rw [List.mapM_cons, ht, hts]; rfl⟩

/-- Nothing is lost and nothing invented exactly when all events are of one batch of blocks. -/
theorem handler_delivers_iff (events : List DataSubmitted) :
    Delivered events (handler (events.map (log eventSig))) ↔
      events ≠ [] ∧ (∀ e ∈ events, e.InRange) ∧ ∀ e ∈ events, ∀ e' ∈ events, e.SameBatch e' := by
  rw [handler_log]
  constructor
  · rintro ⟨calls, hcalls, hreach, honly⟩
    obtain ⟨tasks, htasks, rfl⟩ := Option.map_eq_some_iff.mp hcalls
    obtain ⟨hne, e₀, he₀, _⟩ := honly _ (List.mem_singleton.mpr rfl)
    have hall : ∀ e ∈ events, e.Describes (tasks.getLastD BatchTask.default) := by
      intro e he
      obtain ⟨t, ht, hdescribes⟩ := hreach e he
      rwa [List.mem_singleton.mp ht] at hdescribes
    refine ⟨List.ne_nil_of_mem he₀, ?_, ?_⟩
    · intro e he
      obtain ⟨t, _, ht⟩ := (mapM_task htasks).1 e he
      have heq := (describes_task ht).eq (hall e he)
      exact inRange_of_task ht (heq ▸ hne)
    · intro e he e' he'
      exact sameBatch_of_describes (hall e he) (hall e' he') hne
  · rintro ⟨hne, hrange, hsame⟩
    obtain ⟨tasks, htasks⟩ := mapM_inRange hrange
    obtain ⟨hevents, honly⟩ := mapM_task htasks
    have hlast : tasks.getLastD BatchTask.default ∈ tasks := by
      obtain ⟨e, he⟩ := List.exists_mem_of_ne_nil events hne
      obtain ⟨t, ht, _⟩ := hevents e he
      rw [List.getLastD_eq_getLast?, List.getLast?_eq_some_getLast (List.ne_nil_of_mem ht)]
      exact List.getLast_mem _
    obtain ⟨e₀, he₀, ht₀⟩ := honly _ hlast
    obtain ⟨t₀, ht, hblocks⟩ := (hrange e₀ he₀).task
    obtain rfl := Option.some.inj (ht.symm.trans ht₀)
    refine ⟨_, by rw [htasks]; rfl, ?_, ?_⟩
    · intro e he
      exact ⟨_, List.mem_singleton.mpr rfl, (hsame e₀ he₀ e he).describes (describes_task ht₀)⟩
    · intro t ht
      rw [List.mem_singleton.mp ht]
      exact ⟨hblocks, e₀, he₀, describes_task ht₀⟩

/-- Of two batches in two transactions only the second is reported, and without any logs the task
that is reported has no batch id. -/
theorem handler_loses :
    ¬ Delivered [⟨10, 1, 1, 100⟩, ⟨11, 2, 2, 101⟩]
        (handler ([⟨10, 1, 1, 100⟩, ⟨11, 2, 2, 101⟩].map (log 0))) ∧
      ¬ Delivered [] (handler []) ∧
      (handler []).map (·.map BatchTask.batchId) = some [none] := by
  refine ⟨?_, ?_, rfl⟩
  · rintro ⟨tasks, htasks, hreach, _⟩
    have hcalls : handler ([⟨10, 1, 1, 100⟩, ⟨11, 2, 2, 101⟩].map (log 0)) = some [⟨11, [2]⟩] := by
      decide +kernel
    obtain rfl := Option.some.inj (hcalls.symm.trans htasks)
    obtain ⟨t, ht, hdescribes⟩ := hreach ⟨10, 1, 1, 100⟩ (List.mem_cons_self ..)
    rw [List.mem_singleton.mp ht] at hdescribes
    exact absurd hdescribes.1 (by decide)
  · rintro ⟨tasks, htasks, _, honly⟩
    obtain rfl := Option.some.inj htasks
    exact (honly _ (List.mem_singleton.mpr rfl)).1 rfl

end BatchTaskSubscriber

end LineaSgxProver.Linea
