import Mathlib.Data.List.Basic

/-!
# A disk with a write cache

A write that returned is in the cache until a flush; at a loss of power each cached block may be lost, there or
torn, and what is torn is a parameter. `Holds` is what a block is after any loss of power, `cached` what it will
be after a flush, `May` what it can be. An operation of the device has a fate: it is done, or it reports a
failure after it took effect on some of its blocks.
-/

namespace CrashDisk

open List

variable {β : Type*}

/-- The medium and the writes accepted since, the last one first. -/
structure Disk (β : Type*) where
  flushed : Nat → β
  pending : List (Nat × β)

namespace Disk

/-- The blocks once everything pending is on the medium. -/
def cached (d : Disk β) (b : Nat) : β := ((d.pending.find? (·.1 == b)).map (·.2)).getD (d.flushed b)

def write (d : Disk β) (b : Nat) (v : β) : Disk β := { d with pending := (b, v) :: d.pending }

/-- A flush of the blocks `took` says. -/
def flush (d : Disk β) (took : Nat → Bool) : Disk β where
  flushed b := if took b then d.cached b else d.flushed b
  pending := d.pending.filter fun w => !took w.1

/-- The values `vs` to the blocks from `first` on, those `took` says. -/
def writeAll (d : Disk β) (took : Nat → Bool) : Nat → List β → Disk β
  | _, [] => d
  | first, v :: vs => (if took first then d.write first v else d).writeAll took (first + 1) vs

/-- The block is `v` whatever becomes of the cache. -/
def Holds (d : Disk β) (b : Nat) (v : β) : Prop := d.flushed b = v ∧ ∀ w, (b, w) ∉ d.pending

def HoldsAll (d : Disk β) (first : Nat) (vs : List β) : Prop := ∀ i (h : i < vs.length), d.Holds (first + i) vs[i]

/-- A flush makes the blocks from `first` on `vs`. -/
def CachedAll (d : Disk β) (first : Nat) (vs : List β) : Prop := ∀ i (h : i < vs.length), d.cached (first + i) = vs[i]

/-- What the block can be after a loss of power. -/
def May (torn : Nat → β → Prop) (d : Disk β) (b : Nat) (v : β) : Prop :=
  v = d.flushed b ∨ (b, v) ∈ d.pending ∨ (∃ w, (b, w) ∈ d.pending) ∧ torn b v

/-- `m` is a medium a loss of power can leave. -/
def Survives (torn : Nat → β → Prop) (d : Disk β) (m : Nat → β) : Prop := ∀ b, d.May torn b (m b)

variable {torn : Nat → β → Prop} {d : Disk β} {b b' first n : Nat} {v v' w : β} {vs : List β} {took : Nat → Bool}

/-! ## The cache -/

theorem find_pending_eq_none (h : ∀ w, (b, w) ∉ d.pending) : d.pending.find? (·.1 == b) = none := by
  rw [find?_eq_none]
  rintro ⟨x, w⟩ hx hb
  rw [beq_iff_eq] at hb
  exact h w (hb ▸ hx)

theorem cached_of_holds (h : d.Holds b v) : d.cached b = v := by
  rw [cached, find_pending_eq_none h.2]
  exact h.1

theorem cached_may : d.May torn b (d.cached b) := by
  unfold cached
  cases hf : d.pending.find? (·.1 == b) with
  | none => exact .inl rfl
  | some w =>
    have hx : w.1 = b := by simpa using find?_some hf
    subst hx
    exact .inr (.inl (mem_of_find?_eq_some hf))

@[simp] theorem cached_write_self : (d.write b v).cached b = v := by
  simp [cached, write]

theorem cached_write_of_ne (h : b' ≠ b) : (d.write b v).cached b' = d.cached b' := by
  have hb : ((b, v).1 == b') = false := by simpa using fun hb : b = b' => h hb.symm
  rw [cached, write, find?_cons_of_neg (by simpa using hb)]
  rfl

/-! ## Writes -/

theorem Holds.write (h : d.Holds b v) (hb : b ≠ b') : (d.write b' w).Holds b v := by
  refine ⟨h.1, ?_⟩
  intro x hx
  rcases mem_cons.1 hx with hx | hx
  · rw [Prod.mk.injEq] at hx
    exact hb hx.1
  · exact h.2 x hx

theorem may_write_of_ne (hb : b ≠ b') (h : (d.write b' w).May torn b v) : d.May torn b v := by
  have hmem : ∀ x, (b, x) ∈ (d.write b' w).pending → (b, x) ∈ d.pending := by
    intro x hx
    rcases mem_cons.1 hx with hx | hx
    · rw [Prod.mk.injEq] at hx
      exact absurd hx.1 hb
    · exact hx
  rcases h with h | h | ⟨⟨x, hx⟩, ht⟩
  · exact .inl h
  · exact .inr (.inl (hmem v h))
  · exact .inr (.inr ⟨⟨x, hmem x hx⟩, ht⟩)

theorem may_write_self (h : (d.write b w).May torn b v) : d.May torn b v ∨ v = w ∨ torn b v := by
  rcases h with h | h | ⟨-, ht⟩
  · exact .inl (.inl h)
  · rcases mem_cons.1 h with h | h
    · rw [Prod.mk.injEq] at h
      exact .inr (.inl h.2)
    · exact .inl (.inr (.inl h))
  · exact .inr (.inr ht)

theorem May.eq_of_holds (h : d.Holds b v) (hm : d.May torn b w) : w = v := by
  rcases hm with hm | hm | ⟨⟨x, hx⟩, -⟩
  · exact hm.trans h.1
  · exact absurd hm (h.2 w)
  · exact absurd hx (h.2 x)

/-! ## Flushes -/

theorem Holds.flush (h : d.Holds b v) : (d.flush took).Holds b v := by
  refine ⟨?_, fun w hw => h.2 w (mem_filter.1 hw).1⟩
  change (if took b then d.cached b else d.flushed b) = v
  split
  · exact cached_of_holds h
  · exact h.1

theorem may_flush (h : (d.flush took).May torn b v) : d.May torn b v := by
  rcases h with h | h | ⟨⟨x, hx⟩, ht⟩
  · change v = (if took b then d.cached b else d.flushed b) at h
    split at h
    · exact h ▸ cached_may
    · exact .inl h
  · exact .inr (.inl (mem_filter.1 h).1)
  · exact .inr (.inr ⟨⟨x, (mem_filter.1 hx).1⟩, ht⟩)

theorem cached_flush : (d.flush took).cached b = d.cached b := by
  by_cases hb : took b = true
  · have hnot : ∀ w, (b, w) ∉ (d.flush took).pending := by
      intro w hw
      have h := (mem_filter.1 hw).2
      rw [hb] at h
      cases h
    rw [cached, find_pending_eq_none hnot]
    exact if_pos hb
  · have hfind : (d.flush took).pending.find? (·.1 == b) = d.pending.find? (·.1 == b) := by
      rw [Disk.flush, find?_filter]
      congr 1
      funext w
      by_cases hw : w.1 = b
      · simp [hw, hb]
      · simp [hw]
    rw [cached, hfind]
    congr 1
    exact if_neg hb

/-- After a flush that was done the blocks are what they were to be. -/
theorem holds_flush : (d.flush fun _ => true).Holds b (d.cached b) :=
  ⟨rfl, fun w hw => by simpa using (mem_filter.1 hw).2⟩

/-! ## Runs of blocks -/

theorem HoldsAll.survives {m : Nat → β} (h : d.HoldsAll first vs) (hm : d.Survives torn m) {i : Nat}
    (hi : i < vs.length) : m (first + i) = vs[i] :=
  (hm (first + i)).eq_of_holds (h i hi)

theorem HoldsAll.write (h : d.HoldsAll first vs) (hb : b < first ∨ first + vs.length ≤ b) :
    (d.write b w).HoldsAll first vs :=
  fun i hi => (h i hi).write (by omega)

theorem HoldsAll.flush (h : d.HoldsAll first vs) : (d.flush took).HoldsAll first vs := fun i hi => (h i hi).flush

section
variable (h : d.CachedAll first vs)
include h

theorem CachedAll.flush : (d.flush took).CachedAll first vs :=
  fun i hi => cached_flush.trans (h i hi)

theorem CachedAll.write (hb : b < first ∨ first + vs.length ≤ b) :
    (d.write b w).CachedAll first vs :=
  fun i hi => (cached_write_of_ne (by omega)).trans (h i hi)

theorem CachedAll.holdsAll : (d.flush fun _ => true).HoldsAll first vs := by
  intro i hi
  rw [← h i hi]
  exact holds_flush

theorem CachedAll.append {ws : List β} (h' : d.CachedAll (first + vs.length) ws) :
    d.CachedAll first (vs ++ ws) := by
  intro i hi
  by_cases hlt : i < vs.length
  · rw [getElem_append_left hlt]
    exact h i hlt
  · rw [length_append] at hi
    have hj : first + i = first + vs.length + (i - vs.length) := by omega
    rw [getElem_append_right (Nat.not_lt.1 hlt), hj]
    exact h' (i - vs.length) (by omega)

end

theorem HoldsAll.cachedAll (h : d.HoldsAll first vs) : d.CachedAll first vs := fun i hi => cached_of_holds (h i hi)

/-- A property that each of the writes keeps, the write of the run keeps. -/
theorem writeAll_induction {P : Disk β → Prop} (hstep : ∀ d i (hi : i < vs.length), P d → P (d.write (first + i) vs[i]))
    (h : P d) : P (d.writeAll took first vs) := by
  induction vs generalizing d first with
  | nil => exact h
  | cons v vs ih =>
    refine ih ?_ ?_
    · intro d' i hi hd'
      have h' := hstep d' (i + 1) (by simpa using hi) hd'
      rw [Nat.add_assoc, Nat.add_comm 1 i]
      exact h'
    · split
      · exact hstep d 0 (by simp) h
      · exact h

theorem cached_writeAll_of_lt (hb : b < first) : (d.writeAll took first vs).cached b = d.cached b := by
  refine writeAll_induction (P := fun d' => d'.cached b = d.cached b) ?_ rfl
  intro d' i _ h
  rw [cached_write_of_ne (by omega), h]

theorem cachedAll_writeAll : (d.writeAll (fun _ => true) first vs).CachedAll first vs := by
  induction vs generalizing d first with
  | nil => exact fun i hi => absurd hi (Nat.not_lt_zero i)
  | cons v vs ih =>
    intro i hi
    unfold writeAll
    rw [if_pos rfl]
    cases i with
    | zero => rw [cached_writeAll_of_lt (by omega), Nat.add_zero, cached_write_self, getElem_cons_zero]
    | succ i =>
      have h := @ih (d.write first v) (first + 1) i (by simpa using hi)
      rw [Nat.add_assoc, Nat.add_comm 1 i] at h
      rw [h, getElem_cons_succ]

end Disk

/-! ## Fates -/

/-- What becomes of a write or a flush. -/
inductive Fate where
  | done
  | failed (took : Nat → Bool)

end CrashDisk
