import Mathlib.Algebra.Group.Nat.Defs
import Mathlib.Data.Fintype.Basic
import Stafeto.Lib.Run

/-!
# Quiescent-state reclamation: `Grace` (kcore/src/qsbr.rs)

A CPU that reads links without a lock may keep a pointer until its next quiescent point. The change
that unlinks an object retires it and gets an epoch `e`; the object may go once the mark of every CPU
is `e` or more. `Grace` is modelled field by field, every operation split at its atomic accesses, over
any number of CPUs and any type of objects. Around it stands what the kernel promises at the calls:
a CPU at a quiescent point holds no pointer, and an idle CPU reads no link.

The counter has 64 bits and `fetch_add` wraps. `passed_no_pointer` is the protocol's safety for every
object retired before the counter wraps; `passed_wrapped` is a run past that point in which the period
of a retired object ends at once.
-/

namespace Qsbr

open Run Relation Function

/-- The mark of an idle CPU (qsbr.rs:31): `u64::MAX`. -/
def IDLE : Nat := 2 ^ 64 - 1

/-- `Grace<N>`: the epoch counter and the mark of each CPU. -/
structure Grace (N : Nat) where
  epoch : Nat
  seen : Fin N → Nat

variable {N : Nat} {Obj : Type*}

namespace Grace

/-- `Grace::new` (qsbr.rs:42). -/
def new : Grace N := ⟨1, fun _ => 0⟩

/-- `Grace::retire` (qsbr.rs:51), one atomic `fetch_add`: the epoch of the caller and the counter after. -/
def retire (g : Grace N) : Nat × Grace N :=
  ((g.epoch + 1) % 2 ^ 64, { g with epoch := (g.epoch + 1) % 2 ^ 64 })

/-- The store that ends `Grace::quiesce` (qsbr.rs:57) and the one of `Grace::idle` (qsbr.rs:62). -/
def mark (g : Grace N) (cpu : Fin N) (m : Nat) : Grace N := { g with seen := update g.seen cpu m }

/-- `Grace::cpu_passed` (qsbr.rs:67). -/
def cpuPassed (g : Grace N) (cpu : Fin N) (epoch : Nat) : Bool := decide (epoch ≤ g.seen cpu)

/-- `Grace::passed` (qsbr.rs:73) when nothing moves between its loads; `none` is the slice's panic. -/
def passed (g : Grace N) (epoch cpus : Nat) : Option Bool :=
  if cpus ≤ N then some (decide (∀ c : Fin N, c.val < cpus → g.cpuPassed c epoch = true)) else none

end Grace

open Grace

/-! ## The system around the counter -/

/-- Where an object stands. A retired one carries the epoch `retire` gave it and, as history, how many
retirements there were up to its own. -/
inductive Link where
  | fresh
  | linked
  | unlinked
  | retired (e nth : Nat)
deriving DecidableEq

structure Sys (N : Nat) (Obj : Type*) where
  grace : Grace N
  link : Obj → Link
  /-- The objects the CPU holds a pointer to. -/
  holds : Fin N → Set Obj
  /-- From the store of `IDLE` until the store of the next `quiesce`. -/
  idle : Fin N → Bool
  /-- The epoch that a `quiesce` under way has loaded. -/
  loaded : Fin N → Option Nat
  /-- Retirements so far, as history. -/
  count : Nat

def Init (s : Sys N Obj) : Prop :=
  s.grace = new ∧ (∀ o, s.link o = .fresh) ∧ (∀ c, s.holds c = ∅) ∧ (∀ c, s.idle c = false) ∧
    (∀ c, s.loaded c = none) ∧ s.count = 0

/-- The atomic steps. `wait` is a retirement that waits for the CPUs with no object of its own
(`begin_wait`, kernel/src/qsbr.rs:191). -/
inductive Step [DecidableEq Obj] : Sys N Obj → Sys N Obj → Prop
  | publish (s : Sys N Obj) (o : Obj) (h : s.link o = .fresh) :
      Step s { s with link := update s.link o .linked }
  | unlink (s : Sys N Obj) (o : Obj) (h : s.link o = .linked) :
      Step s { s with link := update s.link o .unlinked }
  | retire (s : Sys N Obj) (o : Obj) (h : s.link o = .unlinked) :
      Step s { s with grace := s.grace.retire.2, count := s.count + 1,
                      link := update s.link o (.retired s.grace.retire.1 (s.count + 1)) }
  | wait (s : Sys N Obj) : Step s { s with grace := s.grace.retire.2, count := s.count + 1 }
  | read (s : Sys N Obj) (c : Fin N) (o : Obj) (h : s.link o = .linked) (hc : s.idle c = false) :
      Step s { s with holds := update s.holds c (insert o (s.holds c)) }
  | drop (s : Sys N Obj) (c : Fin N) (kept : Set Obj) (h : kept ⊆ s.holds c) :
      Step s { s with holds := update s.holds c kept }
  | quiesceLoad (s : Sys N Obj) (c : Fin N) (h : s.holds c = ∅) (hl : s.loaded c = none) :
      Step s { s with loaded := update s.loaded c (some s.grace.epoch) }
  | quiesceStore (s : Sys N Obj) (c : Fin N) (m : Nat) (h : s.loaded c = some m) :
      Step s { s with grace := s.grace.mark c m, loaded := update s.loaded c none,
                      idle := update s.idle c false }
  | idle (s : Sys N Obj) (c : Fin N) (h : s.holds c = ∅) (hl : s.loaded c = none) :
      Step s { s with grace := s.grace.mark c IDLE, idle := update s.idle c true }

variable [DecidableEq Obj] {s s' : Sys N Obj} {e n : Nat} {o : Obj}

/-- A call of `passed` that has found the first `k` CPUs past `e`: it loads the marks one by one, and
any steps of the others come between two loads. It began in the first state and stands in the second. -/
inductive PassedRun (e : Nat) : Nat → Sys N Obj → Sys N Obj → Prop
  | start (s : Sys N Obj) : PassedRun e 0 s s
  | load {k : Nat} {s s' s'' : Sys N Obj} (c : Fin N) (hk : c.val = k) (h : PassedRun e k s s')
      (hr : ReflTransGen Step s' s'') (hc : s''.grace.cpuPassed c e = true) : PassedRun e (k + 1) s s''

/-- Nothing moves during the call: `passed` is then one look at the marks. -/
theorem PassedRun.of_passed {cpus : Nat} (h : s.grace.passed e cpus = some true) :
    PassedRun e cpus s s := by
  unfold passed at h
  split at h
  case isFalse => cases h
  case isTrue hle =>
    simp only [Option.some.injEq, decide_eq_true_eq] at h
    have key : ∀ k, k ≤ cpus → PassedRun e k s s := by
      intro k
      induction k with
      | zero => intro _; exact .start s
      | succ k ih =>
        intro hk
        exact .load ⟨k, by omega⟩ rfl (ih (by omega)) .refl (h ⟨k, by omega⟩ hk)
    exact key cpus le_rfl

/-! ## The invariant -/

/-- Before the counter wraps, the mark of a CPU that is awake, and the epoch its `quiesce` loaded, are
epochs of the past; so a CPU that still holds a retired object has no mark at its epoch or above. -/
structure Inv (s : Sys N Obj) : Prop where
  epoch : s.grace.epoch = (s.count + 1) % 2 ^ 64
  mark : s.count + 1 < 2 ^ 64 → ∀ c, s.idle c = false → s.grace.seen c ≤ s.count + 1
  load : s.count + 1 < 2 ^ 64 → ∀ c m, s.loaded c = some m → m ≤ s.count + 1
  asleep : ∀ c, s.idle c = true → s.holds c = ∅
  retired : ∀ o e n, s.link o = .retired e n → n + 1 < 2 ^ 64 →
    ∀ c, o ∈ s.holds c → s.grace.seen c < e ∧ ∀ m, s.loaded c = some m → m < e

omit [DecidableEq Obj] in
theorem inv_init (h : Init s) : Inv s := by
  obtain ⟨hg, hl, hh, hi, hld, hc⟩ := h
  refine ⟨?_, ?_, ?_, ?_, ?_⟩
  · rw [hg, hc]; rfl
  · intro _ c _; rw [hg]; exact Nat.zero_le _
  · intro _ c m hm; rw [hld c] at hm; cases hm
  · intro c hc; rw [hi c] at hc; cases hc
  · intro o e n ho; rw [hl o] at ho; cases ho

/-- A retirement of `o`, the one step that makes a new obligation: whoever holds `o` is awake, and
its mark is older than the epoch just drawn. -/
theorem inv_retire (hI : Inv s) (o : Obj) :
    Inv { s with grace := s.grace.retire.2, count := s.count + 1,
                 link := update s.link o (.retired s.grace.retire.1 (s.count + 1)) } := by
  refine ⟨?_, ?_, ?_, hI.asleep, ?_⟩
  · simp only [retire]; rw [hI.epoch]; omega
  · intro hw c hc; have := hI.mark (by simp only at hw; omega) c hc; simp only [retire]; omega
  · intro hw c m hm; have := hI.load (by simp only at hw; omega) c m hm; simp only; omega
  · intro o' e n ho' hn c hh
    by_cases heq : o' = o
    · subst heq
      simp only [update_self] at ho'
      obtain ⟨rfl, rfl⟩ := ho'
      have hawake : s.idle c = false := by
        cases hi : s.idle c with
        | false => rfl
        | true => have := hI.asleep c hi; simp only at hh; rw [this] at hh; exact absurd hh (by simp)
      have he : s.grace.retire.1 = s.count + 2 := by
        simp only [retire]; rw [hI.epoch]; omega
      have hm := hI.mark (by omega) c hawake
      refine ⟨by simp only [he]; simp only [retire]; omega, fun m hl => ?_⟩
      have := hI.load (by omega) c m hl
      omega
    · simp only [update_of_ne heq] at ho'
      exact hI.retired o' e n ho' hn c hh

theorem inv_step (hI : Inv s) (h : Step s s') : Inv s' := by
  cases h with
  | publish o ho | unlink o ho =>
    refine ⟨hI.epoch, hI.mark, hI.load, hI.asleep, fun o' e n ho' => ?_⟩
    by_cases heq : o' = o
    · subst heq; simp at ho'
    · simp only [update_of_ne heq] at ho'; exact hI.retired o' e n ho'
  | retire o ho => exact inv_retire hI o
  | wait =>
    refine ⟨?_, ?_, ?_, hI.asleep, hI.retired⟩
    · simp only [retire]; rw [hI.epoch]; omega
    · intro hw c hc; have := hI.mark (by simp only at hw; omega) c hc; simp only [retire]; omega
    · intro hw c m hm; have := hI.load (by simp only at hw; omega) c m hm; simp only; omega
  | read c o ho hc =>
    refine ⟨hI.epoch, hI.mark, hI.load, fun c' hi => ?_, fun o' e n ho' hn c' hh => ?_⟩
    · have hne : c' ≠ c := by rintro rfl; rw [hc] at hi; cases hi
      simp only [update_of_ne hne]; exact hI.asleep c' hi
    · refine hI.retired o' e n ho' hn c' ?_
      by_cases heq : c' = c
      · subst heq
        simp only [update_self] at hh
        rcases hh with rfl | hh
        · rw [ho] at ho'; cases ho'
        · exact hh
      · simpa only [update_of_ne heq] using hh
  | drop c kept hk =>
    refine ⟨hI.epoch, hI.mark, hI.load, fun c' hi => ?_, fun o' e n ho' hn c' hh => ?_⟩
    · by_cases heq : c' = c
      · subst heq
        simp only [update_self]
        have := hI.asleep c' hi
        rw [this] at hk
        exact Set.subset_empty_iff.1 hk
      · simp only [update_of_ne heq]; exact hI.asleep c' hi
    · refine hI.retired o' e n ho' hn c' ?_
      by_cases heq : c' = c
      · subst heq; simp only [update_self] at hh; exact hk hh
      · simpa only [update_of_ne heq] using hh
  | quiesceLoad c hh hl =>
    refine ⟨hI.epoch, hI.mark, fun hw c' m hm => ?_, hI.asleep, fun o' e n ho' hn c' hc' => ?_⟩
    · by_cases heq : c' = c
      · subst heq
        simp only [update_self, Option.some.injEq] at hm
        have := hI.epoch
        simp only; omega
      · simp only [update_of_ne heq] at hm; exact hI.load hw c' m hm
    · have hne : c' ≠ c := by rintro rfl; simp only at hc'; rw [hh] at hc'; exact absurd hc' (by simp)
      obtain ⟨h1, h2⟩ := hI.retired o' e n ho' hn c' hc'
      exact ⟨h1, fun m hm => h2 m (by simpa only [update_of_ne hne] using hm)⟩
  | quiesceStore c m hm =>
    refine ⟨hI.epoch, fun hw c' hi => ?_, fun hw c' m' hl => ?_, fun c' hi => ?_,
      fun o' e n ho' hn c' hc' => ?_⟩
    · by_cases heq : c' = c
      · subst heq; simp only [mark, update_self]; exact hI.load hw c' m hm
      · simp only [mark, update_of_ne heq] at hi ⊢; exact hI.mark hw c' hi
    · by_cases heq : c' = c
      · subst heq; simp at hl
      · simp only [update_of_ne heq] at hl; exact hI.load hw c' m' hl
    · by_cases heq : c' = c
      · subst heq; simp at hi
      · simp only [update_of_ne heq] at hi; exact hI.asleep c' hi
    · obtain ⟨h1, h2⟩ := hI.retired o' e n ho' hn c' hc'
      by_cases heq : c' = c
      · subst heq
        simp only [mark, update_self]
        exact ⟨h2 m hm, fun m' hm' => by simp at hm'⟩
      · simp only [mark, update_of_ne heq]; exact ⟨h1, h2⟩
  | idle c hh hl =>
    refine ⟨hI.epoch, fun hw c' hi => ?_, hI.load, fun c' hi => ?_, fun o' e n ho' hn c' hc' => ?_⟩
    · have hne : c' ≠ c := by rintro rfl; simp at hi
      simp only [mark, update_of_ne hne] at hi ⊢; exact hI.mark hw c' hi
    · by_cases heq : c' = c
      · subst heq; exact hh
      · simp only [update_of_ne heq] at hi; exact hI.asleep c' hi
    · have hne : c' ≠ c := by rintro rfl; simp only at hc'; rw [hh] at hc'; exact absurd hc' (by simp)
      simp only [mark, update_of_ne hne]
      exact hI.retired o' e n ho' hn c' hc'

theorem inv_reachable (h : Reachable Init Step s) : Inv s :=
  h.invariant (fun _ h => inv_init h) (fun _ _ hI h => inv_step hI h)

/-! ## Safety -/

/-- A CPU that no longer holds a retired object never gets it back: only a linked object is read. -/
theorem gone_step {c : Fin N}
    (hg : s.link o = .retired e n ∧ o ∉ s.holds c) (h : Step s s') :
    s'.link o = .retired e n ∧ o ∉ s'.holds c := by
  obtain ⟨ho, hn⟩ := hg
  have other : ∀ o' l, s.link o' ≠ .retired e n → update s.link o' l o = .retired e n := by
    intro o' l hne
    have : o ≠ o' := by rintro rfl; exact hne ho
    rw [update_of_ne this, ho]
  cases h with
  | publish o' h' => exact ⟨other o' _ (by simp [h']), hn⟩
  | unlink o' h' => exact ⟨other o' _ (by simp [h']), hn⟩
  | retire o' h' => exact ⟨other o' _ (by simp [h']), hn⟩
  | read c' o' h' hc =>
    refine ⟨ho, ?_⟩
    by_cases heq : c = c'
    · subst heq
      simp only [update_self, Set.mem_insert_iff, not_or]
      refine ⟨?_, hn⟩
      rintro rfl
      rw [h'] at ho
      cases ho
    · simpa only [update_of_ne heq] using hn
  | drop c' kept hk =>
    refine ⟨ho, ?_⟩
    by_cases heq : c = c'
    · subst heq; simp only [update_self]; exact fun hm => hn (hk hm)
    · simpa only [update_of_ne heq] using hn
  | wait | quiesceLoad | quiesceStore | idle => exact ⟨ho, hn⟩

theorem gone_run {c : Fin N}
    (hg : s.link o = .retired e n ∧ o ∉ s.holds c) (hr : ReflTransGen Step s s') :
    s'.link o = .retired e n ∧ o ∉ s'.holds c :=
  preserved (P := fun s => s.link o = .retired e n ∧ o ∉ s.holds c) (fun _ _ => gone_step) hg hr

theorem link_run (ho : s.link o = .retired e n)
    (hr : ReflTransGen Step s s') : s'.link o = .retired e n := by
  refine preserved (P := fun s => s.link o = .retired e n) (fun s s' ho h => ?_) ho hr
  cases h with
  | publish o' h' | unlink o' h' | retire o' h' =>
    have : o ≠ o' := by rintro rfl; rw [ho] at h'; cases h'
    simp only [update_of_ne this]; exact ho
  | wait | read | drop | quiesceLoad | quiesceStore | idle => exact ho

/-- The CPUs a call of `passed` has looked at hold the object no more, at any point of the call. -/
theorem passedRun_gone {k : Nat} (hs : Reachable Init Step s)
    (ho : s.link o = .retired e n) (hn : n + 1 < 2 ^ 64) (h : PassedRun e k s s') :
    ReflTransGen Step s s' ∧ ∀ c : Fin N, c.val < k → o ∉ s'.holds c := by
  induction h with
  | start => exact ⟨.refl, fun c hc => absurd hc (by omega)⟩
  | load c hk h hr hc ih =>
    obtain ⟨ih1, ih2⟩ := ih hs ho
    have hrun := ih1.trans hr
    refine ⟨hrun, fun c' hc' => ?_⟩
    by_cases heq : c' = c
    · -- the CPU whose mark was just read
      subst heq
      intro hm
      have := ((inv_reachable (hs.trans hrun)).retired o e n (link_run ho hrun) hn c' hm).1
      simp only [cpuPassed, decide_eq_true_eq] at hc
      omega
    · exact (gone_run ⟨link_run ho ih1, ih2 c' (by omega)⟩ hr).2

/-- **Safety of the protocol.** When a call of `passed` with the epoch that `retire` returned for `o`
(one of the first `2^64 - 2` retirements) has found every one of the first `cpus` CPUs past it, none of
them holds `o`, then or in any later state. -/
theorem passed_no_pointer {s₀ s₁ s₂ : Sys N Obj} {o : Obj} {e nth cpus : Nat}
    (hs : Reachable Init Step s₀) (ho : s₀.link o = .retired e nth) (hn : nth ≤ 2 ^ 64 - 2)
    (hp : PassedRun e cpus s₀ s₁) (hr : ReflTransGen Step s₁ s₂) :
    ∀ c : Fin N, c.val < cpus → o ∉ s₂.holds c := by
  intro c hc
  obtain ⟨h1, h2⟩ := passedRun_gone hs ho (by omega) hp
  exact (gone_run ⟨link_run ho h1, h2 c hc⟩ hr).2

/-! ## A period on one CPU, and the wrap of the counter -/

/-- One CPU, one object, `n` waits behind it. -/
def waited (n : Nat) : Sys 1 Unit :=
  { grace := ⟨(n + 1) % 2 ^ 64, fun _ => 0⟩, link := fun _ => .fresh, holds := fun _ => ∅,
    idle := fun _ => false, loaded := fun _ => none, count := n }

theorem waited_reachable : ∀ n, Reachable Init Step (waited n)
  | 0 => .start ⟨rfl, fun _ => rfl, fun _ => rfl, fun _ => rfl, fun _ => rfl, rfl⟩
  | n + 1 => by
    have he : ((n + 1) % 2 ^ 64 + 1) % 2 ^ 64 = (n + 1 + 1) % 2 ^ 64 := by omega
    have h := (waited_reachable n).tail (Step.wait (waited n))
    simpa only [waited, retire, he] using h

/-- CPU 0 reads the object, which is then unlinked and retired after `n` waits. -/
def heldRetired (n : Nat) : Sys 1 Unit :=
  { waited n with
    grace := (waited n).grace.retire.2, count := n + 1, holds := fun _ => {()},
    link := fun _ => .retired (waited n).grace.retire.1 (n + 1) }

theorem heldRetired_reachable (n : Nat) : Reachable Init Step (heldRetired n) := by
  have h1 := (waited_reachable n).tail (Step.publish _ () rfl)
  have h2 := h1.tail (Step.read _ 0 () (by simp) rfl)
  have h3 := h2.tail (Step.unlink _ () (by simp))
  have h4 := h3.tail (Step.retire _ () (by simp))
  convert h4 using 1
  simp only [heldRetired, waited, Sys.mk.injEq, true_and, and_true]
  refine ⟨?_, ?_⟩
  · funext u; simp
  · funext c; rw [Subsingleton.elim c 0]; simp

/-- With the counter at its end, `retire` returns 0 and every mark is past it: `passed` says that the
period of an object is over while CPU 0 still holds it. -/
theorem passed_wrapped :
    ¬ ∀ (s₀ s₁ s₂ : Sys 1 Unit) (o : Unit) (e nth cpus : Nat), Reachable Init Step s₀ →
      s₀.link o = .retired e nth → PassedRun e cpus s₀ s₁ → ReflTransGen Step s₁ s₂ →
      ∀ c : Fin 1, c.val < cpus → o ∉ s₂.holds c := by
  intro h
  have hp : PassedRun 0 1 (heldRetired (2 ^ 64 - 2)) (heldRetired (2 ^ 64 - 2)) :=
    PassedRun.of_passed (by simp [passed, cpuPassed])
  exact h _ _ _ () 0 (2 ^ 64 - 1) 1 (heldRetired_reachable (2 ^ 64 - 2))
    (by simp [heldRetired, waited, retire]) hp .refl 0 (by decide) (by simp [heldRetired])

/-- The same run one object earlier in the life of the counter: CPU 0 lets the pointer go and passes a
quiescent point, and then the period of the object is over for good. -/
theorem passed_no_pointer_one_cpu :
    ∃ s : Sys 1 Unit, s.grace.passed 2 1 = some true ∧ s.link () = .retired 2 1 ∧ () ∉ s.holds 0 := by
  have h1 := (heldRetired_reachable 0).tail (Step.drop _ 0 ∅ (by simp))
  have h2 := h1.tail (Step.quiesceLoad _ 0 (by simp) rfl)
  have h3 := h2.tail (Step.quiesceStore _ 0 2 (by simp [heldRetired, waited, retire]))
  have hp : (mark (heldRetired 0).grace 0 2).passed 2 1 = some true := by
    simp [passed, cpuPassed, mark]
  exact ⟨_, hp, rfl, passed_no_pointer h3 rfl (by decide) (.of_passed hp) .refl 0 (by decide)⟩

end Qsbr
