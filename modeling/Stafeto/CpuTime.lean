import Mathlib.Algebra.BigOperators.Finprod
import Stafeto.Decision

/-!
# Time on the CPU (kcore/src/sched.rs, `charge`, `ran_at`, `slice_left` and `slice_end`)

A thread's node keeps the ticks of its finished stints on the CPU and the rest of its quantum. An observer
with a clock, who only sees who runs, keeps the same books: `observe` runs a sequence of operations with the
instant of each and adds up what passes between them.

What an operation does to each thread is in `Moves`, which `Op.Moved` of the scheduler gives. `ranAt_eq_observed`
(the ticks of the nodes are those of the observer) and `roundRobin_quantum` (no thread has more than its quantum)
follow from it by induction over the run.
-/

namespace Sched

open Abi Scheduler Option

variable {T : Type} {s s' s1 : Scheduler T} {c c' : T → Nat} {t u : T} {n n' k : Node T} {i q e e' : Nat} {op : Op T}

/-- `Node::ran_at` (sched.rs:310). -/
def Node.ranAt (n : Node T) (now : Nat) : Nat :=
  if n.state = .running then satAdd n.ran (now - n.since) else n.ran

/-- A sequence with the instant of each operation, from `start` on and up to `now`, which never goes back. -/
def Timed (now : Nat) : Nat → List (Nat × Op T) → Prop
  | start, [] => start ≤ now
  | start, (i, op) :: evs => start ≤ i ∧ (∀ j, op.instant = some j → j = i) ∧ Timed now i evs

/-! ## What an operation does to the threads -/

section
variable [DecidableEq T] {cleanup : Option Nat} (hI : Inv c s)
include hI

theorem allMove_pick (h : (s.pick i cleanup).map Prod.snd = some s') :
    AllMove i s s' := by
  obtain ⟨⟨d, _⟩, hd, rfl⟩ := map_eq_some_iff.1 h
  obtain ⟨_, _, hd', hdec⟩ := decided_pick i cleanup hI
  cases hd.symm.trans hd'
  unfold pick at hd
  cases hr : s.running with
  | none =>
    simp only [hr] at hd
    obtain ⟨_, _, he, -, hor⟩ := inv_pickNext i hI hr cleanup
    cases hd.symm.trans he
    rcases hor with ⟨rfl, -⟩ | ⟨t, -, n, -, -, -, -, -, -, -, hturn, hm⟩
    · exact allMove_refl i _
    · exact hturn.allMove (hm _) fun x _ hx => absurd hx (hI.off (by simp [hr]))
  | some r =>
    have hoff : ∀ x, x ≠ r → (s.node x).state ≠ .running := fun x hx => hI.off (by simp [hr, hx.symm])
    simp only [hr] at hd
    split at hd
    case isTrue =>
      cases hd
      exact allMove_refl i s
    case isFalse =>
      obtain ⟨s1, hpre, hd⟩ := bind_eq_some_iff.1 hd
      obtain ⟨n, _, hpre', hI1, hr1, hturn1, hm1⟩ := inv_preempt i hI hr
      cases hpre.symm.trans hpre'
      obtain ⟨_, _, he, -, hor⟩ := inv_pickNext i hI1 hr1 cleanup
      cases hd.symm.trans he
      rcases hor with ⟨rfl, -⟩ | ⟨t, -, n', rfl, -, -, -, -, -, -, hturn, hm⟩
      · exact hturn1.allMove (hm1 _) fun _ _ _ => rfl
      · -- the one that comes next is not the one that was put back
        obtain ⟨-, -, -, -, ⟨-, rfl⟩ | ⟨hne, -⟩⟩ := hdec.run t rfl
        · exact allMove_refl i _
        have htr : t ≠ r := by
          rintro rfl
          exact hne hr
        refine ⟨hturn.quantum.trans hturn1.quantum, fun x => ?_⟩
        by_cases hx : x = r
        · subst hx
          exact .congr (.refl _) (hm1 _) (hturn1.self.trans (hturn.other x htr.symm))
        · by_cases hxt : x = t
          · subst hxt
            have hmt := hm s.sliceEnd
            rw [hturn1.quantum] at hmt
            exact .congr (hturn1.other x hx) hmt hturn.self
          · exact ((hturn1.other x hx).trans (hturn.other x hxt)).moves fun hrun => absurd hrun (hoff x hx)

/-- **One operation**: it makes a thread at the place of one that does not run, or moves the threads. -/
theorem exec_moves (hm : op.Meets s) (hi : ∀ j, op.instant = some j → j = i)
    (h : exec s op = some s') :
    (∃ t p pol, op = .create t p pol ∧ (s.node t).state ≠ .running ∧ s' = s.setNode t (Node.new p pol)) ∨
      (∀ t p pol, op ≠ .create t p pol) ∧ AllMove i s s' := by
  by_cases hop : ∃ t p pol, op = .create t p pol
  · obtain ⟨t, p, pol, rfl⟩ := hop
    cases h
    refine .inl ⟨t, p, pol, rfl, ?_, rfl⟩
    rcases hm.2 with hst | hst <;> rw [hst] <;> simp
  · refine .inr ⟨fun t p pol hc => hop ⟨t, p, pol, hc⟩, ?_⟩
    obtain ⟨_, he, -, hc | ⟨now, cleanup, rfl⟩ | hall⟩ := inv_exec hI op hm
    · exact absurd hc hop
    · cases hi now rfl
      exact allMove_pick hI h
    · cases h.symm.trans he
      exact hall i hi

end

/-! ## An observer with a clock -/

/-- What the observer has written down: how long the thread of each node was on the CPU, the threads whose node
another one has now, and nobody; and how long each thread was on the CPU since it was given a quantum. -/
structure Watch (T : Type) where
  ran : T → Nat
  ended : Nat
  idle : Nat
  used : T → Nat

def Watch.zero : Watch T := ⟨fun _ => 0, 0, 0, fun _ => 0⟩

/-- The step from `s` to `s'` at `i` gives `t` a quantum: it is ready with a whole one; or it got the CPU out of
a wait, or turned round robin there, with a whole one from `i` on. -/
def given (i : Nat) (s s' : Scheduler T) (t : T) : Bool :=
  let n := s.node t
  let n' := s'.node t
  decide (n'.state = .ready ∧ n'.sliceLeft = s'.quantum ∨
    n'.state = .running ∧ s'.sliceEnd = satAdd i s'.quantum ∧
      (n.state = .waiting ∨ n.state = .running ∧ n.policy = .fifo ∧ n'.policy = .roundRobin))

section
variable [DecidableEq T] {w : Watch T} {d start : Nat}

/-- Time passes; `running` is on the CPU. -/
def Watch.pass (w : Watch T) (running : Option T) (len : Nat) : Watch T :=
  match running with
  | none => { w with idle := w.idle + len }
  | some r => { w with ran := Function.update w.ran r (w.ran r + len), used := Function.update w.used r (w.used r + len) }

/-- A new thread begins at 0; its node's last one has ended. -/
def Watch.made (w : Watch T) : Op T → Watch T
  | .create t _ _ => { w with ran := Function.update w.ran t 0, ended := w.ended + w.ran t }
  | _ => w

def Watch.note (w : Watch T) (i : Nat) (s s' : Scheduler T) (op : Op T) : Watch T :=
  { w.made op with used := fun t => if given i s s' t then 0 else w.used t }

/-- The run from the instant `i` on, watched up to `now`. -/
def observe (now : Nat) : Scheduler T → Nat → Watch T → List (Nat × Op T) → Option (Scheduler T × Watch T)
  | s, i, w, [] => some (s, w.pass s.running (now - i))
  | s, i, w, (j, op) :: evs => (exec s op).bind fun s' =>
    observe now s' j ((w.pass s.running (j - i)).note j s s' op) evs

omit [DecidableEq T] in
theorem Timed.le {now : Nat} : ∀ {i : Nat} {evs : List (Nat × Op T)}, Timed now i evs → i ≤ now
  | _, [], h => h
  | _, _ :: _, h => h.1.trans h.2.2.le

theorem Watch.pass_off (hI : Inv c s) (ht : (s.node t).state ≠ .running) (len : Nat) :
    (w.pass s.running len).ran t = w.ran t ∧ (w.pass s.running len).used t = w.used t := by
  cases hr : s.running with
  | none => exact ⟨rfl, rfl⟩
  | some r =>
    have : t ≠ r := by
      rintro rfl
      exact ht (hI.running_state hr)
    exact ⟨Function.update_of_ne this .., Function.update_of_ne this ..⟩

/-- What the passing of time and every operation keep holds of every run that is watched. -/
theorem observe_invariant {now : Nat} {P : Nat → Scheduler T → Watch T → Prop}
    (hpass : ∀ c i j s w, Inv c s → P i s w → i ≤ j → j ≤ now → P j s (w.pass s.running (j - i)))
    (hstep : ∀ c j s s' w op, Inv c s → op.Meets s → (∀ k, op.instant = some k → k = j) → exec s op = some s' →
      P j s w → P j s' (w.note j s s' op)) (evs : List (Nat × Op T)) :
    ∀ {c : T → Nat} {s : Scheduler T} {i : Nat} {w : Watch T}, Inv c s → P i s w → Met s (evs.map Prod.snd) →
      Timed now i evs → ∃ c' s' w', observe now s i w evs = some (s', w') ∧ run s (evs.map Prod.snd) = some s' ∧
        Inv c' s' ∧ P now s' w' := by
  induction evs with
  | nil =>
    intro c s i w hI hP _ ht
    exact ⟨c, s, _, rfl, rfl, hI, hpass c i now s w hI hP ht le_rfl⟩
  | cons ev evs ih =>
    obtain ⟨j, op⟩ := ev
    intro c s i w hI hP hm ht
    obtain ⟨s1, he, hI1, -⟩ := inv_exec hI op hm.1
    have hP1 := hstep c j s s1 _ op hI hm.1 ht.2.1 he (hpass c i j s w hI hP ht.1 ht.2.2.le)
    obtain ⟨c', s', w', ho, hr, hI', hP'⟩ := ih hI1 hP1 (hm.2 s1 he) ht.2.2
    refine ⟨c', s', w', ?_, ?_, hI', hP'⟩
    · rw [observe, he]
      exact ho
    · rw [List.map_cons, run, he]
      exact hr

open Watch

/-! ## The ticks of the nodes are the observer's -/

/-- The threads of all nodes, those that ended before and nobody have had the CPU for `d` together. -/
def Watch.Total (w : Watch T) (d : Nat) : Prop :=
  ∃ S : Finset T, (∀ t, t ∉ S → w.ran t = 0) ∧ ∑ t ∈ S, w.ran t + w.ended + w.idle = d

omit [DecidableEq T] in
theorem Watch.Total.le (h : w.Total d) (t : T) : w.ran t ≤ d := by
  obtain ⟨S, hout, hsum⟩ := h
  by_cases ht : t ∈ S
  · have := Finset.single_le_sum (fun x _ => Nat.zero_le (w.ran x)) ht
    omega
  · rw [hout t ht]
    exact Nat.zero_le d

omit [DecidableEq T] in
theorem Watch.Total.finsum (h : w.Total d) : ∑ᶠ t, w.ran t + w.ended + w.idle = d := by
  obtain ⟨S, hout, hsum⟩ := h
  rw [finsum_eq_sum_of_support_subset w.ran fun t ht => ?_]
  · exact hsum
  · by_contra hS
    exact ht (hout t hS)

theorem sum_update {S : Finset T} (hout : ∀ t, t ∉ S → w.ran t = 0) (t : T) (v : Nat) :
    ∃ S' : Finset T, (∀ x, x ∉ S' → Function.update w.ran t v x = 0) ∧
      ∑ x ∈ S', Function.update w.ran t v x + w.ran t = ∑ x ∈ S, w.ran x + v := by
  refine ⟨insert t S, fun x hx => ?_, ?_⟩
  · rw [Finset.mem_insert, not_or] at hx
    rw [Function.update_of_ne hx.1]
    exact hout x hx.2
  · have hS : ∑ x ∈ S, w.ran x = ∑ x ∈ insert t S, w.ran x :=
      Finset.sum_subset (Finset.subset_insert t S) fun x _ hx => hout x hx
    rw [hS, Finset.sum_update_of_mem (Finset.mem_insert_self t S),
      ← Finset.sum_sdiff (Finset.singleton_subset_iff.2 (Finset.mem_insert_self t S)), Finset.sum_singleton]
    omega

theorem Watch.Total.pass (h : w.Total d) (r : Option T) (len : Nat) :
    (w.pass r len).Total (d + len) := by
  obtain ⟨S, hout, hsum⟩ := h
  cases r with
  | none => exact ⟨S, hout, by simp only [Watch.pass]; omega⟩
  | some r =>
    obtain ⟨S', hout', hsum'⟩ := sum_update hout r (w.ran r + len)
    exact ⟨S', hout', by simp only [Watch.pass]; omega⟩

theorem Watch.Total.made (h : w.Total d) (op : Op T) : (w.made op).Total d := by
  cases op with
  | create t p pol =>
    obtain ⟨S, hout, hsum⟩ := h
    obtain ⟨S', hout', hsum'⟩ := sum_update hout t 0
    exact ⟨S', hout', by simp only [Watch.made]; omega⟩
  | _ => exact h

/-- The nodes and the observer agree at `i`. -/
structure Charged (start i : Nat) (s : Scheduler T) (w : Watch T) : Prop where
  le : start ≤ i
  lt : i < 2 ^ 64
  off : ∀ t, (s.node t).state ≠ .running → (s.node t).ran = w.ran t
  on : ∀ t, (s.node t).state = .running → (s.node t).since ≤ i ∧ (s.node t).ran + (i - (s.node t).since) = w.ran t
  total : w.Total (i - start)

theorem Charged.pass {j : Nat} (hI : Inv c s) (h : Charged start i s w) (hij : i ≤ j)
    (hj : j < 2 ^ 64) : Charged start j s (w.pass s.running (j - i)) := by
  have htotal := h.total.pass s.running (j - i)
  rw [show i - start + (j - i) = j - start by have := h.le; omega] at htotal
  refine ⟨h.le.trans hij, hj, fun t ht => ?_, fun t ht => ?_, htotal⟩
  · rw [h.off t ht, (pass_off hI ht _).1]
  · obtain ⟨hsince, hran⟩ := h.on t ht
    refine ⟨hsince.trans hij, ?_⟩
    rw [(hI.running t).2 ht]
    simp only [Watch.pass, Function.update_self]
    omega

omit [DecidableEq T] in
/-- A finished stint never saturates: it is part of the time that has passed. -/
theorem Charged.satAdd_eq (h : Charged start i s w) (ht : (s.node t).state = .running) :
    satAdd (s.node t).ran (i - (s.node t).since) = w.ran t := by
  have hran := (h.on t ht).2
  have hle := h.total.le t
  have hlt := h.lt
  unfold satAdd
  omega

theorem Charged.step (hI : Inv c s) (hm : op.Meets s)
    (hi : ∀ k, op.instant = some k → k = i) (he : exec s op = some s') (h : Charged start i s w) :
    Charged start i s' (w.note i s s' op) := by
  rcases exec_moves hI hm hi he with ⟨t, p, pol, rfl, hne, rfl⟩ | ⟨hop, -, hmoves⟩
  · refine ⟨h.le, h.lt, fun x hx => ?_, fun x hx => ?_, h.total.made (.create t p pol)⟩
    · by_cases hxt : x = t
      · subst hxt
        simp [note, made, Node.new]
      · rw [setNode_ne hxt] at hx ⊢
        simpa [note, made, hxt] using h.off x hx
    · by_cases hxt : x = t
      · subst hxt
        simp [Node.new] at hx
      · rw [setNode_ne hxt] at hx ⊢
        simpa [note, made, hxt] using h.on x hx
  · have hran : (w.note i s s' op).ran = w.ran := by
      cases op with
      | create t p pol => exact absurd rfl (hop t p pol)
      | _ => rfl
    refine ⟨h.le, h.lt, fun x hx => ?_, fun x hx => ?_, h.total.made op⟩
    · rw [hran]
      cases hmoves x with
      | off hn _ heq _ => rw [heq]; exact h.off x hn
      | on _ h' => exact absurd h' hx
      | leaves hn _ heq _ => rw [heq]; exact h.satAdd_eq hn
      | enters _ h' => exact absurd h' hx
    · rw [hran]
      cases hmoves x with
      | off _ h' => exact absurd hx h'
      | on hn _ heq hsince _ => rw [heq, hsince]; exact h.on x hn
      | leaves _ h' => exact absurd hx h'
      | enters hn _ heq hsince _ =>
        rw [heq, hsince, h.off x hn, Nat.sub_self]
        exact ⟨le_refl i, rfl⟩

omit [DecidableEq T] in
theorem Charged.ranAt_eq (h : Charged start i s w) (t : T) :
    (s.node t).ranAt i = w.ran t := by
  unfold Node.ranAt
  split
  case isTrue ht => exact h.satAdd_eq ht
  case isFalse ht => exact h.off t ht

omit [DecidableEq T] in
theorem charged_init (h : Init s) (hs : start < 2 ^ 64) : Charged start start s zero := by
  have hnode : ∀ t, (s.node t).state = .stopped ∧ (s.node t).ran = 0 := by
    intro t
    obtain ⟨p, pol, -, hn⟩ := h.2.2.2 t
    rw [hn]
    exact ⟨rfl, rfl⟩
  refine ⟨le_rfl, hs, fun t _ => (hnode t).2, fun t ht => ?_, ∅, fun _ _ => rfl, ?_⟩
  · rw [(hnode t).1] at ht
    cases ht
  · simp [zero]

/-- **CPU-time accounting**: after every run of operations at instants that never go back, `ran_at` is for each
thread the total of the intervals up to `now` in which it was the running thread; and with the threads that
were before at the same nodes, and with the time in which nothing ran, these times make up all that passed. -/
theorem ranAt_eq_observed (s₀ : Scheduler T) (h : Init s₀) (start now : Nat) (evs : List (Nat × Op T))
    (hm : Met s₀ (evs.map Prod.snd)) (ht : Timed now start evs) (hnow : now < 2 ^ 64) :
    ∃ s w, observe now s₀ start zero evs = some (s, w) ∧ run s₀ (evs.map Prod.snd) = some s ∧
      (∀ t, (s.node t).ranAt now = w.ran t) ∧
      ∑ᶠ t, (s.node t).ranAt now + w.ended + w.idle = now - start := by
  have hstart : start < 2 ^ 64 := lt_of_le_of_lt ht.le hnow
  obtain ⟨_, s, w, ho, hr, -, hch⟩ := observe_invariant
    (fun c i j s w hI hP hij hj => hP.pass hI hij (lt_of_le_of_lt hj hnow))
    (fun c j s s' w op hI hm hi he hP => hP.step hI hm hi he) evs (inv_init h) (charged_init h hstart) hm ht
  refine ⟨s, w, ho, hr, hch.ranAt_eq, ?_⟩
  simp only [hch.ranAt_eq]
  exact hch.total.finsum

/-- One thread until the tick at 100, another until it blocks at 130, and then nobody. -/
theorem ranAt_eq_observed_two_threads :
    ∃ s w, observe 150 ⟨ReadyQueue.new, none, 0, 100, fun _ : Bool => Node.new 10 .roundRobin⟩ 0 zero
        [(0, .start true), (0, .start false), (0, .pick 0 none), (100, .tick 100), (100, .pick 100 none),
          (130, .block 130)] = some (s, w) ∧
      (s.node true).ranAt 150 = 100 ∧ (s.node false).ranAt 150 = 30 ∧
      ∑ᶠ t, (s.node t).ranAt 150 + w.ended + 20 = 150 := by
  have hm : Met ⟨ReadyQueue.new, none, 0, 100, fun _ : Bool => Node.new 10 .roundRobin⟩
      [.start true, .start false, .pick 0 none, .tick 100, .pick 100 none, .block 130] := by
    refine ⟨trivial, fun s1 h1 => ⟨trivial, fun s2 h2 => ⟨trivial, fun s3 h3 => ⟨trivial, fun s4 h4 => ⟨trivial,
      fun s5 h5 => ⟨?_, fun _ _ => trivial⟩⟩⟩⟩⟩⟩
    cases h1; cases h2; cases h3; cases h4; cases h5
    rfl
  obtain ⟨s, w, ho, -, hran, htotal⟩ := ranAt_eq_observed ⟨ReadyQueue.new, none, 0, 100, fun _ : Bool =>
    Node.new 10 .roundRobin⟩ ⟨rfl, rfl, by decide, fun _ => ⟨10, .roundRobin, by decide, rfl⟩⟩ 0 150
    [(0, .start true), (0, .start false), (0, .pick 0 none), (100, .tick 100), (100, .pick 100 none),
      (130, .block 130)] hm (by simp [Timed, Op.instant]) (by decide)
  have hw : w.ran true = 100 ∧ w.ran false = 30 ∧ w.idle = 20 := by
    cases ho
    decide
  rw [hw.2.2] at htotal
  exact ⟨s, w, ho, by rw [hran, hw.1], by rw [hran, hw.2.1], htotal⟩

/-! ## No more than a quantum -/

/-- The quantum of each round-robin thread at `i`, with what it has used. -/
structure Sliced (q i : Nat) (s : Scheduler T) (w : Watch T) : Prop where
  quantum : s.quantum = q
  ready : ∀ t, (s.node t).state = .ready → (s.node t).policy = .roundRobin →
    0 < (s.node t).sliceLeft ∧ w.used t + (s.node t).sliceLeft ≤ q
  running : ∀ t, (s.node t).state = .running → (s.node t).policy = .roundRobin → w.used t + s.sliceEnd ≤ q + i

theorem Sliced.pass {j : Nat} (hI : Inv c s) (h : Sliced q i s w) (hij : i ≤ j) :
    Sliced q j s (w.pass s.running (j - i)) := by
  refine ⟨h.quantum, fun t ht hp => ?_, fun t ht hp => ?_⟩
  · rw [(pass_off hI (by rw [ht]; simp) _).2]
    exact h.ready t ht hp
  · have := h.running t ht hp
    rw [(hI.running t).2 ht]
    simp only [Watch.pass, Function.update_self]
    omega

theorem used_note_le (w : Watch T) (i : Nat) (s s' : Scheduler T) (op : Op T) (t : T) :
    (w.note i s s' op).used t ≤ w.used t := by
  simp only [note]
  split <;> omega

theorem used_note_ready (w : Watch T) (op : Op T) (h : (s'.node t).state = .ready)
    (hq : (s'.node t).sliceLeft = s'.quantum) : (w.note i s s' op).used t = 0 := by
  simp [note, given, h, hq]

theorem used_note_running (w : Watch T) (op : Op T) (h : (s'.node t).state = .running)
    (hq : s'.sliceEnd = satAdd i s'.quantum)
    (hn : (s.node t).state = .waiting ∨
      (s.node t).state = .running ∧ (s.node t).policy = .fifo ∧ (s'.node t).policy = .roundRobin) :
    (w.note i s s' op).used t = 0 := by
  simp only [note, given, h, hq]
  rw [if_pos (by simpa using hn)]

theorem satAdd_le (a b : Nat) : satAdd a b ≤ a + b := min_le_left ..

theorem Sliced.step (hI : Inv c s) (hm : op.Meets s)
    (hi : ∀ k, op.instant = some k → k = i) (he : exec s op = some s') (h : Sliced q i s w) :
    Sliced q i s' (w.note i s s' op) := by
  have hq := h.quantum
  have hpos := hI.quantum
  rcases exec_moves hI hm hi he with ⟨t, p, pol, rfl, hne, rfl⟩ | ⟨-, hq', hmoves⟩
  · refine ⟨hq, fun x hx hp => ?_, fun x hx hp => ?_⟩
    all_goals
      have hle := used_note_le w i s (s.setNode t (Node.new p pol)) (.create t p pol) x
      by_cases hxt : x = t
      · subst hxt
        simp [Node.new] at hx
      rw [setNode_ne hxt] at hx hp
    · have := h.ready x hx hp
      rw [setNode_ne hxt]
      omega
    · have := h.running x hx hp
      exact le_trans (Nat.add_le_add_right hle _) this
  · refine ⟨hq'.trans hq, fun x hx hp => ?_, fun x hx hp => ?_⟩
    · have hle := used_note_le w i s s' op x
      have hfull : (s'.node x).sliceLeft = s.quantum →
          0 < (s'.node x).sliceLeft ∧ (w.note i s s' op).used x + (s'.node x).sliceLeft ≤ q := by
        intro hs
        rw [used_note_ready w op hx (hs.trans hq'.symm)]
        omega
      cases hmoves x with
      | off _ _ _ hslice =>
        rcases hslice hx hp with hs | ⟨hst, hpol, hs⟩
        · exact hfull hs
        · have := h.ready x hst hpol
          omega
      | on _ h' => rw [h'] at hx; cases hx
      | leaves hst _ _ hslice =>
        rcases hslice hx hp with hs | ⟨hpol, hlt, hs⟩
        · exact hfull hs
        · have := h.running x hst hpol
          omega
      | enters _ h' => rw [h'] at hx; cases hx
    · have hle := used_note_le w i s s' op x
      cases hmoves x with
      | off _ h' => exact absurd hx h'
      | on hst _ _ _ hslice =>
        rcases hslice hp with ⟨hpol, he'⟩ | ⟨hpol, he'⟩
        · have := h.running x hst hpol
          omega
        · have := satAdd_le i s.quantum
          rw [used_note_running w op hx (by rw [he', hq']) (Or.inr ⟨hst, hpol, hp⟩)]
          omega
      | leaves _ h' => exact absurd hx h'
      | enters _ _ _ _ hslice =>
        rcases hslice with ⟨hst, hpol, he'⟩ | ⟨hst, he'⟩
        · have := h.ready x hst (hpol ▸ hp)
          have := satAdd_le i (s.node x).sliceLeft
          omega
        · have := satAdd_le i s.quantum
          rw [used_note_running w op hx (by rw [he', hq']) (Or.inl hst)]
          omega

omit [DecidableEq T] in
theorem sliced_init (h : Init s) (start : Nat) : Sliced s.quantum start s zero := by
  have hnode : ∀ t, (s.node t).state = .stopped := by
    intro t
    obtain ⟨p, pol, -, hn⟩ := h.2.2.2 t
    rw [hn]
    rfl
  refine ⟨rfl, fun t ht => ?_, fun t ht => ?_⟩
  all_goals
    rw [hnode t] at ht
    cases ht

/-- The end of a quantum that begins at `i` with `x` of at most `q` ticks. -/
theorem satAdd_slice {x : Nat} (hx : 0 < x) (hq : x ≤ q) :
    (i < satAdd i x ∨ satAdd i x = 2 ^ 64 - 1) ∧ satAdd i x ≤ i + q := by
  unfold satAdd
  omega

/-- A thread that takes the CPU at `i`, or turns round robin there, has a quantum that ends after `i`. -/
theorem Sliced.slice (hI : Inv c s) (hm : op.Meets s)
    (hi : ∀ k, op.instant = some k → k = i) (he : exec s op = some s') (h : Sliced q i s w)
    (ht : (s'.node t).state = .running) (hp : (s'.node t).policy = .roundRobin)
    (hn : (s.node t).state ≠ .running ∨ (s.node t).policy = .fifo) :
    (i < s'.sliceEnd ∨ s'.sliceEnd = 2 ^ 64 - 1) ∧ s'.sliceEnd ≤ i + q := by
  have hq := h.quantum
  have hpos := hI.quantum
  rcases exec_moves hI hm hi he with ⟨u, p, pol, rfl, hne, rfl⟩ | ⟨-, hq', hmoves⟩
  · by_cases htu : t = u
    · subst htu
      simp [Node.new] at ht
    · rw [setNode_ne htu] at ht hp
      rcases hn with hn | hn
      · exact absurd ht hn
      · rw [hn] at hp
        cases hp
  · cases hmoves t with
    | off _ h' => exact absurd ht h'
    | on hst _ _ _ hslice =>
      rcases hslice hp with ⟨hpol, -⟩ | ⟨-, he'⟩
      · rcases hn with hn | hn
        · exact absurd hst hn
        · rw [hn] at hpol
          cases hpol
      · rw [he', ← hq]
        exact satAdd_slice hpos le_rfl
    | leaves _ h' => exact absurd ht h'
    | enters _ _ _ _ hslice =>
      rcases hslice with ⟨hst, hpol, he'⟩ | ⟨-, he'⟩
      · have := h.ready t hst (hpol ▸ hp)
        rw [he']
        exact satAdd_slice this.1 (by omega)
      · rw [he', ← hq]
        exact satAdd_slice hpos le_rfl

/-- **The round-robin quantum**: after every run of operations at instants that never go back,
* a ready round-robin thread has some of its quantum left and no more than a quantum;
* when the next operation, at `now`, puts a round-robin thread on the CPU, or makes the running thread round
  robin, its quantum ends after `now` and at most a quantum later, up to saturation;
* the thread on the CPU has used, since it was last given a quantum and over all its stints, no more than that
  quantum and the time that has passed since the end of it: the lateness of the tick, when `now` is a tick. -/
theorem roundRobin_quantum (s₀ : Scheduler T) (h : Init s₀) (start now : Nat) (evs : List (Nat × Op T))
    (hm : Met s₀ (evs.map Prod.snd)) (ht : Timed now start evs) :
    ∃ s w, observe now s₀ start zero evs = some (s, w) ∧ run s₀ (evs.map Prod.snd) = some s ∧
      s.quantum = s₀.quantum ∧
      (∀ t, (s.node t).state = .ready → (s.node t).policy = .roundRobin →
        0 < (s.node t).sliceLeft ∧ (s.node t).sliceLeft ≤ s₀.quantum) ∧
      (∀ op s', op.Meets s → (∀ k, op.instant = some k → k = now) → exec s op = some s' →
        ∀ t, s'.running = some t → (s'.node t).policy = .roundRobin →
          s.running ≠ some t ∨ (s.node t).policy = .fifo →
          (now < s'.sliceEnd ∨ s'.sliceEnd = 2 ^ 64 - 1) ∧ s'.sliceEnd ≤ now + s₀.quantum) ∧
      ∀ t, s.running = some t → (s.node t).policy = .roundRobin →
        w.used t ≤ s₀.quantum + (now - s.sliceEnd) := by
  obtain ⟨_, s, w, ho, hr, hI, hs⟩ := observe_invariant
    (fun c i j s w hI hP hij _ => hP.pass hI hij)
    (fun c j s s' w op hI hm hi he hP => hP.step hI hm hi he) evs (inv_init h) (sliced_init h start) hm ht
  refine ⟨s, w, ho, hr, hs.quantum, fun t hst hp => ?_, fun op s' hop hi he t hrun hp hn => ?_, fun t hrun hp => ?_⟩
  · have := hs.ready t hst hp
    omega
  · obtain ⟨s'', he', hI', -⟩ := inv_exec hI op hop
    cases he.symm.trans he'
    refine hs.slice hI hop hi he (hI'.running_state hrun) hp (hn.imp_left fun hne hst => ?_)
    exact hne ((hI.running t).2 hst)
  · have := hs.running t (hI.running_state hrun) hp
    omega

/-- A thread of level 10 that one of level 12 interrupts from 30 to 50: it gets the CPU back up to 120, and at
125 it has used 105 ticks, 5 of them late. -/
theorem roundRobin_quantum_interrupted :
    ∃ s w, observe 125 ⟨ReadyQueue.new, none, 0, 100, fun high : Bool => Node.new (cond high 12 10) .roundRobin⟩ 0
        zero [(0, .start false), (0, .pick 0 none), (30, .start true), (30, .pick 30 none), (50, .block 50),
          (50, .pick 50 none)] = some (s, w) ∧
      s.running = some false ∧ s.sliceEnd = 120 ∧ w.used false = 105 ∧ w.used false ≤ 100 + (125 - s.sliceEnd) := by
  have hm : Met ⟨ReadyQueue.new, none, 0, 100, fun high : Bool => Node.new (cond high 12 10) .roundRobin⟩
      [.start false, .pick 0 none, .start true, .pick 30 none, .block 50, .pick 50 none] := by
    refine ⟨trivial, fun s1 h1 => ⟨trivial, fun s2 h2 => ⟨trivial, fun s3 h3 => ⟨trivial, fun s4 h4 => ⟨?_,
      fun s5 h5 => ⟨trivial, fun _ _ => trivial⟩⟩⟩⟩⟩⟩
    cases h1; cases h2; cases h3; cases h4
    rfl
  obtain ⟨s, w, ho, -, -, -, -, hused⟩ := roundRobin_quantum ⟨ReadyQueue.new, none, 0, 100, fun high : Bool =>
    Node.new (cond high 12 10) .roundRobin⟩
    ⟨rfl, rfl, by decide, fun b => ⟨cond b 12 10, .roundRobin, by cases b <;> decide, rfl⟩⟩ 0 125
    [(0, .start false), (0, .pick 0 none), (30, .start true), (30, .pick 30 none), (50, .block 50),
      (50, .pick 50 none)] hm (by simp [Timed, Op.instant])
  have hw : s.running = some false ∧ (s.node false).policy = .roundRobin ∧ s.sliceEnd = 120 ∧ w.used false = 105 := by
    cases ho
    decide
  exact ⟨s, w, ho, hw.1, hw.2.2.1, hw.2.2.2, hused false hw.1 hw.2.1⟩

end

end Sched
