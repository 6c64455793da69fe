import LineaSgxProver.Library.Run
import LineaSgxProver.Verifier.CommitBatch

namespace LineaSgxProver.Linea

open Library
open Verifier (Address Current)

/-- The private keys, each with the account it signs for. -/
class Secp256k1 (Key : Type) where
  ethAccountid : Key → Address

open Secp256k1 (ethAccountid)

structure Prover (Key : Type) where
  prvkey : Key
  attested : Bool

namespace Prover

variable {Key : Type}

def new (prvkey : Key) : Prover Key := ⟨prvkey, false⟩

def isAttested (p : Prover Key) : Bool := p.attested

def getPrvkey (p : Prover Key) : Key := p.prvkey

def updatePrvkey (_ : Prover Key) (new : Key) : Prover Key := ⟨new, true⟩

end Prover

/-- The state of `monitor_attested` between two iterations of its loop. The clock counts nanoseconds. -/
structure Monitor (Key : Type) where
  prover : Prover Key
  lastSubmit : Option ℕ
  submitCooldown : ℕ
  stagingKey : Option Key

/-- What an iteration meets: the answers of the chain, or none where the call fails, the time, a new
key, its report, and what becomes of the report. -/
structure Poll (Key : Type) where
  proverStatus : Option SU256
  attestValiditySeconds : Option SU256
  now : UInt64
  clock : ℕ
  newKey : Key
  report : Option Bytes
  submitted : Bytes → Bool
  submitClock : ℕ

/-- Both answers have come, and the time that they attest the key for is not over. -/
def Poll.Flags {Key : Type} (p : Poll Key) : Prop :=
  ∃ status seconds, p.proverStatus = some status ∧ p.attestValiditySeconds = some seconds ∧
    p.now < UInt64.ofNat status.toNat + UInt64.ofNat seconds.toNat

namespace Monitor

variable {Key : Type}

def start (prover : Prover Key) : Monitor Key := ⟨prover, none, 180, none⟩

def asked (m : Monitor Key) : Key := m.stagingKey.getD m.prover.getPrvkey

def cooldownDue (m : Monitor Key) (clock : ℕ) : Bool :=
  match m.lastSubmit with
  | some lastSubmit => lastSubmit + m.submitCooldown * 10 ^ 9 < clock
  | none => true

def submit (m : Monitor Key) (p : Poll Key) : Monitor Key :=
  if m.cooldownDue p.clock then
    match p.report with
    | none => m
    | some report =>
      if p.submitted report then { m with lastSubmit := some p.submitClock, stagingKey := some p.newKey }
      else m
  else m

def promote (m : Monitor Key) : Monitor Key :=
  match m.stagingKey with
  | some stagingKey => { m with prover := m.prover.updatePrvkey stagingKey, stagingKey := none }
  | none => m

def cooled (m : Monitor Key) (validity : UInt64) : Monitor Key :=
  if validity.toNat < m.submitCooldown then { m with submitCooldown := (validity / 2).toNat } else m

def flagged (m : Monitor Key) (isAttested : Bool) : Monitor Key :=
  match m.stagingKey with
  | some _ => m
  | none => { m with prover := { m.prover with attested := isAttested } }

/-- One iteration. It panics where an answer does not fit a `u64`, or a checked sum does not. -/
def iterate [Profile] (m : Monitor Key) (p : Poll Key) : Option (Monitor Key) :=
  match p.proverStatus with
  | none => some m
  | some status => do
    let attestedTime ← SU256.asU64 status
    match p.attestValiditySeconds with
    | none => some m
    | some seconds => do
      let validity ← SU256.asU64 seconds
      let expiry ← addU64 attestedTime validity
      let m := (m.cooled validity).flagged (p.now < expiry)
      let renewal ← addU64 attestedTime (validity / 2)
      if renewal < p.now then some (m.submit p) else some m.promote

section Steps

variable {m m' : Monitor Key} {p : Poll Key}

@[simp] theorem cooled_prover (v : UInt64) : (m.cooled v).prover = m.prover := by
  unfold cooled
  split_ifs <;> rfl

@[simp] theorem cooled_stagingKey (v : UInt64) : (m.cooled v).stagingKey = m.stagingKey := by
  unfold cooled
  split_ifs <;> rfl

@[simp] theorem submit_prover : (m.submit p).prover = m.prover := by
  unfold submit
  split
  · split
    · rfl
    · split_ifs <;> rfl
  · rfl

@[simp] theorem flagged_stagingKey (b : Bool) : (m.flagged b).stagingKey = m.stagingKey := by
  unfold flagged
  split <;> rfl

theorem flagged_prover (b : Bool) : (m.flagged b).prover =
    match m.stagingKey with
    | some _ => m.prover
    | none => ⟨m.prover.prvkey, b⟩ := by
  unfold flagged
  cases m.stagingKey <;> rfl

theorem promote_prover : m.promote.prover =
    match m.stagingKey with
    | some key => ⟨key, true⟩
    | none => m.prover := by
  unfold promote
  cases m.stagingKey <;> rfl

theorem promote_stagingKey : m.promote.stagingKey = none := by
  unfold promote
  cases h : m.stagingKey with
  | none => exact h
  | some key => rfl

/-- An iteration stops at a call that fails, or it asks for a new key or makes the staged one the prover's. -/
theorem iterate_cases [Profile] (h : m.iterate p = some m') :
    ((p.proverStatus = none ∨ p.attestValiditySeconds = none) ∧ m' = m) ∨
      ∃ status seconds, p.proverStatus = some status ∧ p.attestValiditySeconds = some seconds ∧
        ∃ attestedTime validity : UInt64, status.toNat = attestedTime.toNat ∧ seconds.toNat = validity.toNat ∧
          m' = if attestedTime + validity / 2 < p.now
            then ((m.cooled validity).flagged (p.now < attestedTime + validity)).submit p
            else ((m.cooled validity).flagged (p.now < attestedTime + validity)).promote := by
  unfold iterate at h
  cases hstatus : p.proverStatus with
  | none =>
    rw [hstatus] at h
    exact Or.inl ⟨Or.inl rfl, (Option.some.inj h).symm⟩
  | some status =>
    rw [hstatus] at h
    obtain ⟨attestedTime, htime, h⟩ := Option.bind_eq_some_iff.mp h
    cases hseconds : p.attestValiditySeconds with
    | none =>
      rw [hseconds] at h
      exact Or.inl ⟨Or.inr rfl, (Option.some.inj h).symm⟩
    | some seconds =>
      rw [hseconds] at h
      obtain ⟨validity, hvalidity, h⟩ := Option.bind_eq_some_iff.mp h
      obtain ⟨expiry, hexpiry, h⟩ := Option.bind_eq_some_iff.mp h
      obtain ⟨renewal, hrenewal, h⟩ := Option.bind_eq_some_iff.mp h
      obtain rfl := addU64_eq_some hexpiry
      obtain rfl := addU64_eq_some hrenewal
      refine Or.inr ⟨status, seconds, rfl, rfl, attestedTime, validity, SU256.asU64_eq_some.mp htime,
        SU256.asU64_eq_some.mp hvalidity, ?_⟩
      split_ifs at h ⊢ with hold
      · exact (Option.some.inj h).symm
      · exact (Option.some.inj h).symm

theorem iterate_prover [Profile] {status seconds : SU256} (h : m.iterate p = some m')
    (hstatus : p.proverStatus = some status) (hseconds : p.attestValiditySeconds = some seconds) :
    ∃ attestedTime validity : UInt64, status.toNat = attestedTime.toNat ∧
      seconds.toNat = validity.toNat ∧ m'.prover =
        match m.stagingKey with
        | none => ⟨m.prover.prvkey, p.now < attestedTime + validity⟩
        | some key => if attestedTime + validity / 2 < p.now then m.prover else ⟨key, true⟩ := by
  rcases iterate_cases h with ⟨hfailed | hfailed, -⟩ |
    ⟨status', seconds', hstatus', hseconds', attestedTime, validity, htime, hvalidity, rfl⟩
  · rw [hstatus] at hfailed
    cases hfailed
  · rw [hseconds] at hfailed
    cases hfailed
  · obtain rfl := Option.some.inj (hstatus.symm.trans hstatus')
    obtain rfl := Option.some.inj (hseconds.symm.trans hseconds')
    refine ⟨attestedTime, validity, htime, hvalidity, ?_⟩
    split_ifs with hold
    · rw [submit_prover, flagged_prover, cooled_stagingKey, cooled_prover]
      cases m.stagingKey <;> rfl
    · rw [promote_prover, flagged_prover, flagged_stagingKey, cooled_stagingKey, cooled_prover]
      cases m.stagingKey <;> rfl

/-- An iteration that leaves a key staged has left the prover alone, unless it was the one to stage it. -/
theorem iterate_staged [Profile] (h : m.iterate p = some m') (hstaged : m'.stagingKey ≠ none) :
    (m.stagingKey ≠ none → m'.prover = m.prover) ∧
      (m.stagingKey = none → (m'.prover.isAttested = true ↔ p.Flags)) := by
  rcases iterate_cases h with ⟨hfailed, rfl⟩ |
    ⟨status, seconds, hstatus, hseconds, attestedTime, validity, htime, hvalidity, rfl⟩
  · exact ⟨fun _ => rfl, fun hnone => absurd hnone hstaged⟩
  · split_ifs at hstaged ⊢ with hold
    · rw [submit_prover, flagged_prover, cooled_stagingKey, cooled_prover]
      constructor
      · intro hsome
        cases hkey : m.stagingKey with
        | none => exact absurd hkey hsome
        | some key => rfl
      · intro hnone
        rw [hnone]
        change decide (p.now < attestedTime + validity) = true ↔ _
        rw [decide_eq_true_iff]
        constructor
        · intro hlt
          refine ⟨status, seconds, hstatus, hseconds, ?_⟩
          rwa [htime, hvalidity, UInt64.ofNat_toNat, UInt64.ofNat_toNat]
        · rintro ⟨status', seconds', hstatus', hseconds', hlt⟩
          obtain rfl := Option.some.inj (hstatus.symm.trans hstatus')
          obtain rfl := Option.some.inj (hseconds.symm.trans hseconds')
          rwa [htime, hvalidity, UInt64.ofNat_toNat, UInt64.ofNat_toNat] at hlt
    · exact absurd promote_stagingKey hstaged

end Steps

end Monitor

structure Watched (Key : Type) where
  monitor : Monitor Key
  known : Address → Option SU256

namespace Watched

variable {Key : Type} [Secp256k1 Key]

def start (prvkey : Key) : Watched Key := ⟨Monitor.start (Prover.new prvkey), fun _ => none⟩

def heard (w : Watched Key) (p : Poll Key) : Address → Option SU256 :=
  match p.proverStatus with
  | some status => Function.update w.known (ethAccountid w.monitor.asked) (some status)
  | none => w.known

variable [Profile]

def next (w : Watched Key) (p : Poll Key) : Option (Watched Key) :=
  (w.monitor.iterate p).map fun m => ⟨m, w.heard p⟩

def run (w : Watched Key) (polls : List (Poll Key)) : Option (Watched Key) := polls.foldlM next w

theorem run_snoc {w v : Watched Key} {polls : List (Poll Key)} (h : w.run polls = some v) (p : Poll Key) :
    w.run (polls ++ [p]) = v.next p := Run.foldlM_snoc h

/-- The last iteration of a run that asked the chain for an account and was answered. -/
def LastAsked (w : Watched Key) (account : Address) : List (Poll Key) → Poll Key → Prop :=
  Run.LastEvent next w fun v p => ethAccountid v.monitor.asked = account ∧ p.proverStatus ≠ none

/-- The last iteration of a run that began with no key staged. -/
def LastFree (w : Watched Key) : List (Poll Key) → Poll Key → Prop :=
  Run.LastEvent next w fun v _ => v.monitor.stagingKey = none

/-- What is known of an account is what the last iteration that asked for it was told. -/
theorem known_iff_lastAsked {prvkey : Key} {w : Watched Key} {polls : List (Poll Key)}
    (h : (start prvkey).run polls = some w) (account : Address) (status : SU256) :
    w.known account = some status ↔
      ∃ p, (start prvkey).LastAsked account polls p ∧ p.proverStatus = some status := by
  have hanswered : ∀ (v : Watched Key) (p : Poll Key) (v' : Watched Key), v.next p = some v' →
      ethAccountid v.monitor.asked = account ∧ p.proverStatus ≠ none → v'.known account = p.proverStatus := by
    rintro v p v' hnext ⟨rfl, hsome⟩
    obtain ⟨m, -, rfl⟩ := Option.map_eq_some_iff.mp hnext
    obtain ⟨answer, hanswer⟩ := Option.ne_none_iff_exists'.mp hsome
    change v.heard p _ = _
    rw [heard, hanswer]
    exact Function.update_self ..
  have hkept : ∀ (v : Watched Key) (p : Poll Key) (v' : Watched Key), v.next p = some v' →
      ¬ (ethAccountid v.monitor.asked = account ∧ p.proverStatus ≠ none) → v'.known account = v.known account := by
    intro v p v' hnext hother
    obtain ⟨m, -, rfl⟩ := Option.map_eq_some_iff.mp hnext
    change v.heard p account = _
    unfold heard
    cases hanswer : p.proverStatus with
    | none => rfl
    | some answer =>
      apply Function.update_of_ne
      rintro rfl
      exact hother ⟨rfl, fun hnone => nomatch hanswer.symm.trans hnone⟩
  have hfirst : some status ≠ (start prvkey).known account := fun h => nomatch h
  exact Run.view_iff_lastEvent hanswered hkept hfirst h

/-- While a key is staged the flag is what the last iteration before made of it. -/
theorem attested_iff_lastFree {prvkey : Key} {w : Watched Key} {polls : List (Poll Key)}
    (h : (start prvkey).run polls = some w) (hstaged : w.monitor.stagingKey ≠ none) :
    w.monitor.prover.isAttested = true ↔ ∃ p, (start prvkey).LastFree polls p ∧ p.Flags := by
  induction polls using List.reverseRecOn generalizing w with
  | nil =>
    obtain rfl : start prvkey = w := Option.some.inj h
    exact absurd rfl hstaged
  | append_singleton polls p ih =>
    obtain ⟨v, hv, -⟩ := Option.bind_eq_some_iff.mp (List.foldlM_append.symm.trans h)
    rw [run_snoc hv] at h
    obtain ⟨m, hm, rfl⟩ := Option.map_eq_some_iff.mp h
    obtain ⟨hkept, hset⟩ := Monitor.iterate_staged hm hstaged
    unfold LastFree at ih ⊢
    simp only [Run.lastEvent_snoc hv]
    by_cases hfree : v.monitor.stagingKey = none
    · simpa [hfree] using hset hfree
    · have hsame : m.prover = v.monitor.prover := hkept hfree
      simpa [hfree, hsame] using ih hv hfree

end Watched

section Vouches

variable {Key : Type} [Secp256k1 Key]

def Attests (known : Address → Option SU256) (key : Key) (validity : SU256) (now : ℕ) : Prop :=
  ∃ t, known (ethAccountid key) = some t ∧ Current t validity now

/-- The flag vouches only for a key that the contract accepts. -/
def Vouches (w : Watched Key) (validity : SU256) (now : ℕ) : Prop :=
  w.monitor.prover.isAttested = true → Attests w.known w.monitor.prover.getPrvkey validity now

variable [Profile]

/-- An iteration leaves no false flag. With no key staged the flag is set by the key's own expiry, which a zero
time can pass; where the staged key is promoted it is set by the earlier renewal time; and else it is the one
that the last iteration before the staging has raised, of which only the last answer for the key can tell
whether it is still right. -/
def Sound (prvkey : Key) (pre : List (Poll Key)) (w : Watched Key) (p : Poll Key)
    (attestedTime validity : SU256) : Prop :=
  match w.monitor.stagingKey with
  | none => ¬ (attestedTime = 0 ∧ p.now.toNat < validity.toNat)
  | some _ =>
    if UInt64.ofNat attestedTime.toNat + UInt64.ofNat validity.toNat / 2 < p.now then
      (∃ q, (Watched.start prvkey).LastFree pre q ∧ q.Flags) →
        ∃ q t, (Watched.start prvkey).LastAsked (ethAccountid w.monitor.prover.getPrvkey) (pre ++ [p]) q ∧
          q.proverStatus = some t ∧ Current t validity p.now.toNat
    else attestedTime ≠ 0 ∧ ¬ (validity = 0 ∧ attestedTime.toNat = p.now.toNat)

end Vouches

section Runs

variable {Key : Type} [Secp256k1 Key] {w w' : Watched Key} {p : Poll Key} {key : Key}
  {status seconds : SU256} {now : ℕ}

theorem attests_asked (hkey : w.monitor.asked = key) (hstatus : p.proverStatus = some status) :
    Attests (w.heard p) key seconds now ↔ Current status seconds now := by
  have hheard : w.heard p (ethAccountid key) = some status := by
    rw [← hkey, Watched.heard, hstatus]
    exact Function.update_self ..
  constructor
  · rintro ⟨t, ht, hdate⟩
    rwa [Option.some.inj (hheard.symm.trans ht)]
  · intro hdate
    exact ⟨status, hheard, hdate⟩

theorem flag_sound {attestedTime validity : UInt64} {now : UInt64}
    (htime : status.toNat = attestedTime.toNat) (hvalidity : seconds.toNat = validity.toNat) :
    (now < attestedTime + validity → Current status seconds now.toNat) ↔
      ¬ (status = 0 ∧ now.toNat < seconds.toNat) := by
  have hsum := add_toNat_le attestedTime validity
  constructor
  · rintro h ⟨rfl, hlt⟩
    have hzero : attestedTime = 0 := UInt64.toNat_inj.mp htime.symm
    rw [hzero, UInt64.zero_add, UInt64.lt_iff_toNat_lt, ← hvalidity] at h
    exact (h hlt).1 rfl
  · intro h hlt
    rw [UInt64.lt_iff_toNat_lt] at hlt
    refine ⟨?_, by omega⟩
    rintro rfl
    have hzero : attestedTime.toNat = 0 := htime.symm
    exact h ⟨rfl, by omega⟩

theorem renewal_sound {attestedTime validity : UInt64} {now : UInt64}
    (htime : status.toNat = attestedTime.toNat) (hvalidity : seconds.toNat = validity.toNat)
    (hrenewal : ¬ attestedTime + validity / 2 < now) :
    Current status seconds now.toNat ↔ status ≠ 0 ∧ ¬ (seconds = 0 ∧ status.toNat = now.toNat) := by
  have hsum := add_toNat_le attestedTime (validity / 2)
  have hhalf : (validity / 2).toNat = validity.toNat / 2 := UInt64.toNat_div validity 2
  have hle : now.toNat ≤ (attestedTime + validity / 2).toNat := by
    rw [UInt64.lt_iff_toNat_lt] at hrenewal
    omega
  have hzero : seconds = 0 ↔ seconds.toNat = 0 := by
    rw [← BitVec.toNat_inj]
    rfl
  unfold Current
  rw [hzero]
  constructor
  · rintro ⟨hstatus, hlt⟩
    exact ⟨hstatus, by omega⟩
  · rintro ⟨hstatus, hne⟩
    exact ⟨hstatus, by omega⟩

variable [Profile]

/-- In every run the flag is false or right after an iteration exactly when the answers of the run are sound. -/
theorem monitorAttested_vouches_iff (prvkey : Key) (pre : List (Poll Key)) (p : Poll Key)
    (hrun : (Watched.start prvkey).run pre = some w) (hnext : w.next p = some w')
    (hstatus : p.proverStatus = some status) (hseconds : p.attestValiditySeconds = some seconds) :
    Vouches w' seconds p.now.toNat ↔ Sound prvkey pre w p status seconds := by
  have hrun' : (Watched.start prvkey).run (pre ++ [p]) = some w' := (Watched.run_snoc hrun p).trans hnext
  have hknown := Watched.known_iff_lastAsked hrun'
  obtain ⟨m', hm', rfl⟩ := Option.map_eq_some_iff.mp hnext
  obtain ⟨attestedTime, validity, htime, hvalidity, hprover⟩ :=
    Monitor.iterate_prover hm' hstatus hseconds
  have htimeWord : UInt64.ofNat status.toNat = attestedTime := by rw [htime, UInt64.ofNat_toNat]
  have hvalidityWord : UInt64.ofNat seconds.toNat = validity := by rw [hvalidity, UInt64.ofNat_toNat]
  unfold Vouches Sound
  rw [hprover, htimeWord, hvalidityWord]
  cases hstaging : w.monitor.stagingKey with
  | none =>
    have hasked : w.monitor.asked = w.monitor.prover.prvkey := by
      rw [Monitor.asked, hstaging]
      rfl
    change (decide (p.now < attestedTime + validity) = true → _) ↔ ¬ (status = 0 ∧ _)
    rw [decide_eq_true_iff, ← flag_sound htime hvalidity]
    exact imp_congr_right fun _ => attests_asked hasked hstatus
  | some key =>
    have hasked : w.monitor.asked = key := by
      rw [Monitor.asked, hstaging]
      rfl
    by_cases hold : attestedTime + validity / 2 < p.now
    · simp only [if_pos hold]
      -- the flag and what is known of the key are both left from earlier iterations of the run
      have hflag := Watched.attested_iff_lastFree hrun (by rw [hstaging]; exact Option.some_ne_none key)
      rw [hflag]
      refine imp_congr_right fun _ => ?_
      unfold Attests
      simp only [hknown]
      constructor
      · rintro ⟨t, ⟨q, hlast, ht⟩, hdate⟩
        exact ⟨q, t, hlast, ht, hdate⟩
      · rintro ⟨q, t, hlast, ht, hdate⟩
        exact ⟨t, ⟨q, hlast, ht⟩, hdate⟩
    · simp only [if_neg hold]
      rw [← renewal_sound htime hvalidity hold, ← attests_asked hasked hstatus]
      exact ⟨fun h => h rfl, fun h _ => h⟩

end Runs

section Sample

abbrev sampleKeys : Secp256k1 ℕ := ⟨BitVec.ofNat 160⟩

def samplePoll (status : SU256) (now : UInt64) : Poll ℕ :=
  ⟨some status, some 3600, now, now.toNat * 10 ^ 9, 2, some [], fun _ => true, now.toNat * 10 ^ 9⟩

theorem monitorAttested_vouches_sample :
    letI := sampleKeys
    letI := debugProfile
    ∃ w, (Watched.start 1).run [samplePoll 1000 1100, samplePoll 1000 3000, samplePoll 0 4000] = some w ∧
      w.monitor.prover.isAttested = true ∧ Vouches w 3600 4000 := by
  let := sampleKeys
  let := debugProfile
  have hfirst : ((Watched.start 1).run [samplePoll 1000 1100]).map (fun w => w.monitor.asked) = some 1 := by
    decide +kernel
  have hstage : ((Watched.start 1).run [samplePoll 1000 1100, samplePoll 1000 3000]).map
      (fun w => (w.monitor.stagingKey, w.monitor.prover.getPrvkey)) = some (some 2, 1) := by decide +kernel
  have hlast : ((Watched.start 1).run [samplePoll 1000 1100, samplePoll 1000 3000, samplePoll 0 4000]).map
      (fun w => w.monitor.prover.isAttested) = some true := by decide +kernel
  obtain ⟨u, hu, hasked⟩ := Option.map_eq_some_iff.mp hfirst
  obtain ⟨w, hw, hpair⟩ := Option.map_eq_some_iff.mp hstage
  obtain ⟨w', hw', hflag⟩ := Option.map_eq_some_iff.mp hlast
  obtain ⟨hstaging, hcurrent⟩ := Prod.mk.inj hpair
  refine ⟨w', hw', hflag, ?_⟩
  apply (monitorAttested_vouches_iff 1 [samplePoll 1000 1100, samplePoll 1000 3000] (samplePoll 0 4000) hw
    ((Watched.run_snoc hw (samplePoll 0 4000)).symm.trans hw') rfl rfl).mpr
  rw [Sound, hstaging]
  change (if (0 : UInt64) + 3600 / 2 < 4000 then _ else _)
  rw [if_pos (by decide)]
  rintro -
  -- the second iteration was the last one to ask for the first key
  refine ⟨samplePoll 1000 3000, 1000, ⟨[samplePoll 1000 1100], [samplePoll 0 4000], u, rfl, hu, ?_, ?_⟩, rfl, ?_⟩
  · change ethAccountid u.monitor.asked = ethAccountid w.monitor.prover.getPrvkey ∧ _
    rw [hasked, hcurrent]
    exact ⟨rfl, fun h => nomatch h⟩
  · intro mid r rest v hpost hrun
    cases mid with
    | nil =>
      obtain rfl : w = v := Option.some.inj (hw.symm.trans hrun)
      rintro ⟨haccount, -⟩
      rw [Monitor.asked.eq_def, hstaging, hcurrent] at haccount
      exact absurd haccount (by decide)
    | cons q mid => simp at hpost
  · exact ⟨by decide, by decide⟩

/-- While the new key waits for its approval the flag still vouches for the old one, which is out of date. -/
theorem monitorAttested_stale :
    letI := sampleKeys
    letI := debugProfile
    ∃ w, (Watched.start 1).run [samplePoll 1000 1100, samplePoll 1000 3000, samplePoll 0 5000] = some w ∧
      ¬ Vouches w 3600 5000 := by
  let := sampleKeys
  let := debugProfile
  have hrun : ((Watched.start 1).run [samplePoll 1000 1100, samplePoll 1000 3000, samplePoll 0 5000]).map
      (fun w => (w.monitor.prover.isAttested, w.known (ethAccountid w.monitor.prover.getPrvkey))) =
        some (true, some 1000) := by decide +kernel
  obtain ⟨w, hw, hpair⟩ := Option.map_eq_some_iff.mp hrun
  obtain ⟨hflag, hknown⟩ := Prod.mk.inj hpair
  refine ⟨w, hw, ?_⟩
  intro hvouches
  obtain ⟨t, ht, _, hlt⟩ := hvouches hflag
  rw [hknown] at ht
  obtain rfl := Option.some.inj ht
  exact absurd hlt (by decide)

end Sample

end LineaSgxProver.Linea
