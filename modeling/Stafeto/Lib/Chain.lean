import Mathlib.Data.List.Nodup
import Mathlib.Data.Option.Basic

/-!
# Chains of indices

A list kept through its items: each holds the number of the next one, and `nil` ends it. `IsChain next
nil head l` says that reading from `head` gives `l`. Only the values at the items count. In a double chain
each item also holds the one before it, so that an item is taken out where it stands.
-/

namespace Chain

open Function List

/-- Reading from `head` through `next` gives the list. -/
def IsChain {ι : Type*} (next : ι → ι) (nil : ι) : ι → List ι → Prop
  | head, [] => head = nil
  | head, i :: l => head = i ∧ i ≠ nil ∧ IsChain next nil (next i) l

variable {ι : Type*} {next next' : ι → ι} {nil head : ι} {l : List ι}

section
variable (h : IsChain next nil head l)
include h

theorem IsChain.congr (hn : ∀ i ∈ l, next' i = next i) : IsChain next' nil head l := by
  induction l generalizing head with
  | nil => exact h
  | cons i l ih =>
    obtain ⟨h1, h2, h3⟩ := h
    refine ⟨h1, h2, ?_⟩
    rw [hn i (by simp)]
    exact ih h3 fun j hj => hn j (by simp [hj])

theorem IsChain.eq_nil : head = nil ↔ l = [] := by
  cases l with
  | nil => exact ⟨fun _ => rfl, fun _ => h⟩
  | cons i l =>
    obtain ⟨h1, h2, _⟩ := h
    subst h1
    simp [h2]

/-- A chain that does not end at once begins with its head. -/
theorem IsChain.of_ne (hne : head ≠ nil) :
    ∃ rest, l = head :: rest ∧ IsChain next nil (next head) rest := by
  cases l with
  | nil => exact absurd h hne
  | cons i rest =>
    obtain ⟨rfl, _, h3⟩ := h
    exact ⟨rest, rfl, h3⟩

theorem IsChain.push [DecidableEq ι] {i : ι} (hi : i ∉ l) (hne : i ≠ nil) :
    IsChain (update next i head) nil i (i :: l) := by
  refine ⟨rfl, hne, ?_⟩
  rw [update_self]
  refine h.congr fun j hj => update_of_ne ?_ ..
  rintro rfl
  exact hi hj

end

theorem IsChain.append [DecidableEq ι] {z i : ι} (h : IsChain next nil head (l ++ [z])) (hnd : (l ++ [z]).Nodup)
    (hi : i ∉ l ++ [z]) (hne : i ≠ nil) :
    IsChain (update (update next i nil) z i) nil head (l ++ [z] ++ [i]) := by
  induction l generalizing head with
  | nil =>
    obtain ⟨rfl, h2, -⟩ := h
    have hiz : i ≠ head := by simpa using hi
    refine ⟨rfl, h2, ?_⟩
    rw [update_self]
    refine ⟨rfl, hne, ?_⟩
    rw [update_of_ne hiz, update_self]
    rfl
  | cons j l ih =>
    obtain ⟨rfl, h2, h3⟩ := h
    rw [cons_append, nodup_cons] at hnd
    rw [cons_append, mem_cons, not_or] at hi
    have hjz : head ≠ z := by
      rintro rfl
      exact hnd.1 (by simp)
    refine ⟨rfl, h2, ?_⟩
    rw [update_of_ne hjz, update_of_ne (Ne.symm hi.1)]
    exact ih h3 hnd.2 hi.2

/-! ## Double chains -/

/-- A chain whose items also hold the one before, which is `p` for the first. -/
def IsDouble {ι : Type*} (next prev : ι → ι) (nil : ι) : ι → ι → List ι → Prop
  | _, head, [] => head = nil
  | p, head, i :: l => head = i ∧ i ≠ nil ∧ prev i = p ∧ IsDouble next prev nil i (next i) l

section Double

variable {prev prev' : ι → ι} {i p : ι}

section
variable (h : IsDouble next prev nil p head l)
include h

theorem IsDouble.congr (hn : ∀ x ∈ l, next' x = next x)
    (hp : ∀ x ∈ l, prev' x = prev x) : IsDouble next' prev' nil p head l := by
  induction l generalizing p head with
  | nil => exact h
  | cons j l ih =>
    obtain ⟨h1, h2, h3, h4⟩ := h
    refine ⟨h1, h2, ?_, ?_⟩
    · rw [hp j (by simp)]; exact h3
    · rw [hn j (by simp)]
      exact ih h4 (fun x hx => hn x (by simp [hx])) fun x hx => hp x (by simp [hx])

theorem IsDouble.eq_nil : head = nil ↔ l = [] := by
  cases l with
  | nil => exact ⟨fun _ => rfl, fun _ => h⟩
  | cons i l =>
    obtain ⟨rfl, h2, _⟩ := h
    simp [h2]

theorem IsDouble.head_mem (hne : head ≠ nil) : head ∈ l := by
  cases l with
  | nil => exact absurd h hne
  | cons i l =>
    obtain ⟨rfl, _⟩ := h
    simp

theorem IsDouble.ne_nil (hi : i ∈ l) : i ≠ nil := by
  induction l generalizing p head with
  | nil => simp at hi
  | cons j l ih =>
    obtain ⟨rfl, h2, _, h4⟩ := h
    rcases mem_cons.1 hi with rfl | hi
    · exact h2
    · exact ih h4 hi

theorem IsDouble.next_mem (hi : i ∈ l) : next i = nil ∨ next i ∈ l := by
  induction l generalizing p head with
  | nil => simp at hi
  | cons j l ih =>
    obtain ⟨rfl, _, _, h4⟩ := h
    rcases mem_cons.1 hi with rfl | hi
    · by_cases hn : next i = nil
      · exact Or.inl hn
      · exact Or.inr (mem_cons_of_mem _ (h4.head_mem hn))
    · exact (ih h4 hi).imp id (mem_cons_of_mem _)

theorem IsDouble.prev_mem (hi : i ∈ l) : prev i = p ∨ prev i ∈ l := by
  induction l generalizing p head with
  | nil => simp at hi
  | cons j l ih =>
    obtain ⟨rfl, _, h3, h4⟩ := h
    rcases mem_cons.1 hi with rfl | hi
    · exact Or.inl h3
    · rcases ih h4 hi with he | hm
      · exact Or.inr (by simp [he])
      · exact Or.inr (mem_cons_of_mem _ hm)

/-- Only the first item follows what stands before all. -/
theorem IsDouble.prev_eq (hn : l.Nodup) (hp : p ∉ l) (hi : i ∈ l) :
    prev i = p ↔ i = head := by
  cases l with
  | nil => simp at hi
  | cons j l =>
    obtain ⟨rfl, _, h3, h4⟩ := h
    constructor
    · intro he
      rcases mem_cons.1 hi with rfl | hi
      · rfl
      · rcases h4.prev_mem hi with hj | hm
        · exact absurd (by simp [← he, hj]) hp
        · exact absurd (mem_cons_of_mem _ (he ▸ hm)) hp
    · rintro rfl
      exact h3

theorem IsDouble.reprev (hn : ∀ x ∈ l, next' x = next x)
    (hp : ∀ x ∈ l, x ≠ head → prev' x = prev x) {q : ι} (hq : head ∈ l → prev' head = q) (hnd : l.Nodup) :
    IsDouble next' prev' nil q head l := by
  cases l with
  | nil => exact h
  | cons j l =>
    obtain ⟨rfl, h2, h3, h4⟩ := h
    refine ⟨rfl, h2, hq (by simp), ?_⟩
    rw [hn head (by simp)]
    refine h4.congr (fun x hx => hn x (by simp [hx])) fun x hx => hp x (by simp [hx]) ?_
    rintro rfl
    exact (nodup_cons.1 hnd).1 hx

omit h in
theorem IsDouble.push [DecidableEq ι] (h : IsDouble next prev nil nil head l) (hnd : l.Nodup) (hne : i ≠ nil)
    (hn : ∀ x ∈ l, next' x = next x) (hni : next' i = head) (hpi : prev' i = nil)
    (hp : ∀ x ∈ l, prev' x = if x = head then i else prev x) : IsDouble next' prev' nil nil i (i :: l) := by
  refine ⟨rfl, hne, hpi, ?_⟩
  rw [hni]
  refine h.reprev hn (fun x hx hxh => ?_) (fun hm => ?_) hnd
  · rw [hp x hx, if_neg hxh]
  · rw [hp head hm, if_pos rfl]

theorem IsDouble.remove [DecidableEq ι] (hnd : l.Nodup) (hpl : p ∉ l) (hi : i ∈ l)
    (hn : ∀ x ∈ l, x ≠ i → next' x = if x = prev i then next i else next x)
    (hp : ∀ x ∈ l, x ≠ i → prev' x = if x = next i then prev i else prev x) :
    IsDouble next' prev' nil p (if i = head then next i else head) (l.erase i) := by
  induction l generalizing p head with
  | nil => simp at hi
  | cons j l ih =>
    obtain ⟨rfl, h2, h3, h4⟩ := h
    obtain ⟨hj, hnd'⟩ := nodup_cons.1 hnd
    by_cases hij : i = head
    · -- the first: what follows it comes to the front
      subst hij
      rw [if_pos rfl, erase_cons_head]
      have hpl' : p ∉ l := fun hm => hpl (mem_cons_of_mem _ hm)
      have hne : ∀ x ∈ l, x ≠ i := fun x hx he => hj (he ▸ hx)
      refine h4.reprev (fun x hx => ?_) (fun x hx hxn => ?_) (fun hm => ?_) hnd'
      · rw [hn x (mem_cons_of_mem _ hx) (hne x hx), if_neg]
        rintro rfl
        exact hpl' (h3 ▸ hx)
      · rw [hp x (mem_cons_of_mem _ hx) (hne x hx), if_neg hxn]
      · rw [hp _ (mem_cons_of_mem _ hm) (hne _ hm), if_pos rfl, h3]
    · have hil : i ∈ l := (mem_cons.1 hi).resolve_left hij
      rw [if_neg hij, erase_cons_tail (by simpa using Ne.symm hij)]
      have hrest := ih h4 hnd' hj hil (fun x hx => hn x (mem_cons_of_mem _ hx)) fun x hx => hp x (mem_cons_of_mem _ hx)
      refine ⟨rfl, h2, ?_, ?_⟩
      · rw [hp head (by simp) (Ne.symm hij), if_neg, h3]
        rintro he
        rcases h4.next_mem hil with h0 | hm
        · exact h2 (he.trans h0)
        · exact hj (he ▸ hm)
      · rw [hn head (by simp) (Ne.symm hij)]
        have hiff : head = prev i ↔ i = next head := by
          rw [eq_comm]
          exact h4.prev_eq hnd' hj hil
        simpa only [hiff] using hrest

end

end Double

/-! ## Double chains through optional links -/

section Linked

variable {T : Type*} {next next' prev prev' : T → Option T} {p head : Option T} {l : List T} {i : T}

/-- A double chain whose links are `none` at its ends. -/
def IsLinked (next prev : T → Option T) (p head : Option T) (l : List T) : Prop :=
  IsDouble (·.bind next) (·.bind prev) none p head (l.map some)

theorem isLinked_nil : IsLinked next prev p head [] ↔ head = none := Iff.rfl

theorem isLinked_cons : IsLinked next prev p head (i :: l) ↔
    head = some i ∧ prev i = p ∧ IsLinked next prev (some i) (next i) l := by
  show head = some i ∧ some i ≠ none ∧ _ ∧ _ ↔ _
  simp [IsLinked]

theorem IsLinked.congr (h : IsLinked next prev p head l) (hn : ∀ x ∈ l, next' x = next x)
    (hp : ∀ x ∈ l, prev' x = prev x) : IsLinked next' prev' p head l := by
  refine IsDouble.congr h (fun x hx => ?_) fun x hx => ?_
  all_goals
    obtain ⟨y, hy, rfl⟩ := mem_map.1 hx
  · exact hn y hy
  · exact hp y hy

theorem IsLinked.head_eq (h : IsLinked next prev p head l) : head = l.head? := by
  cases l with
  | nil => exact h
  | cons i l => exact (isLinked_cons.1 h).1

theorem IsLinked.next_mem (h : IsLinked next prev p head l) (hi : i ∈ l) {x : T} (hx : next i = some x) : x ∈ l := by
  rcases IsDouble.next_mem h (mem_map_of_mem hi) with hn | hm
  · rw [Option.bind_some, hx] at hn
    cases hn
  · rw [Option.bind_some, hx] at hm
    simpa using hm

section
variable (h : IsLinked next prev none head l)
include h

theorem IsLinked.prev_mem (hi : i ∈ l) {x : T} (hx : prev i = some x) : x ∈ l := by
  rcases IsDouble.prev_mem h (mem_map_of_mem hi) with hn | hm
  · rw [Option.bind_some, hx] at hn
    cases hn
  · rw [Option.bind_some, hx] at hm
    simpa using hm

/-- Only the first item has no item before it. -/
theorem IsLinked.prev_eq_none (hnd : l.Nodup) (hi : i ∈ l) :
    prev i = none ↔ head = some i := by
  have := IsDouble.prev_eq h (hnd.map (Option.some_injective T)) (by simp) (mem_map_of_mem hi)
  rw [eq_comm (a := some i)] at this
  exact this

omit h in
/-- No item is its own neighbour. -/
theorem IsLinked.ne_self (h : IsLinked next prev p head l) (hnd : l.Nodup) (hp : ∀ x ∈ l, p ≠ some x) (hi : i ∈ l) :
    next i ≠ some i ∧ prev i ≠ some i := by
  induction l generalizing p head with
  | nil => cases hi
  | cons j l ih =>
    obtain ⟨-, hprev, hl⟩ := isLinked_cons.1 h
    obtain ⟨hj, hnd'⟩ := nodup_cons.1 hnd
    rcases mem_cons.1 hi with rfl | hi
    · refine ⟨fun hn => ?_, fun he => hp i (by simp) (hprev.symm.trans he)⟩
      rw [hl.head_eq] at hn
      exact hj (mem_of_head? hn)
    · refine ih hl hnd' (fun x hx he => ?_) hi
      cases he
      exact hj hx

theorem IsLinked.push [DecidableEq T] (hnd : l.Nodup)
    (hn : ∀ x ∈ l, next' x = next x) (hni : next' i = head) (hpi : prev' i = none)
    (hp : ∀ x ∈ l, prev' x = if some x = head then some i else prev x) : IsLinked next' prev' none (some i) (i :: l) := by
  have hd : IsDouble (·.bind next) (·.bind prev) none none head (l.map some) := h
  refine hd.push (hnd.map (Option.some_injective T)) (by simp) (fun x hx => ?_) hni hpi fun x hx => ?_
  all_goals
    obtain ⟨y, hy, rfl⟩ := mem_map.1 hx
  · exact hn y hy
  · exact hp y hy

theorem IsLinked.remove [DecidableEq T] (hnd : l.Nodup) (hi : i ∈ l)
    (hn : ∀ x ∈ l, x ≠ i → next' x = if some x = prev i then next i else next x)
    (hp : ∀ x ∈ l, x ≠ i → prev' x = if some x = next i then prev i else prev x) :
    IsLinked next' prev' none (if prev i = none then next i else head) (l.erase i) := by
  have hinj := Option.some_injective T
  have hd : IsDouble (·.bind next) (·.bind prev) none none head (l.map some) := h
  simp only [h.prev_eq_none hnd hi, eq_comm (a := head)]
  rw [IsLinked, map_erase hinj, lawful_beq_subsingleton (@Option.instBEq T _) instBEqOfDecidableEq]
  refine hd.remove (hnd.map hinj) (by simp) (mem_map_of_mem hi) (fun x hx hne => ?_) fun x hx hne => ?_
  all_goals
    obtain ⟨y, hy, rfl⟩ := mem_map.1 hx
  · exact hn y hy fun e => hne (by rw [e])
  · exact hp y hy fun e => hne (by rw [e])

end

/-- The items that a walk along the links meets. -/
def walk (next : T → Option T) : Nat → Option T → List T
  | 0, _ => []
  | _ + 1, none => []
  | fuel + 1, some i => i :: walk next fuel (next i)

/-- A walk that is long enough reads the list back. -/
theorem IsLinked.walk_eq {fuel : Nat} (h : IsLinked next prev p head l) (hfuel : l.length ≤ fuel) :
    walk next fuel head = l := by
  induction l generalizing p head fuel with
  | nil =>
    cases isLinked_nil.1 h
    cases fuel <;> rfl
  | cons i l ih =>
    obtain ⟨rfl, -, hrest⟩ := isLinked_cons.1 h
    cases fuel with
    | zero => simp at hfuel
    | succ fuel => rw [walk, ih hrest (Nat.le_of_succ_le_succ hfuel)]

end Linked

/-! ## Lists by owner

The items of many owners, each in the double chain of its owner. The links and the owner stand in the items,
the heads with the owners. -/

section Family

variable {T H : Type*} {next next' prev prev' : T → Option T} {head head' : H → Option T} {owner owner' : T → Option H}
  {ls : H → List T} {c : T} {h : H}

structure Family (next prev : T → Option T) (head : H → Option T) (owner : T → Option H) (ls : H → List T) : Prop where
  linked : ∀ h, IsLinked next prev none (head h) (ls h)
  nodup : ∀ h, (ls h).Nodup
  mem : ∀ h c, c ∈ ls h ↔ owner c = some h
  outside : ∀ c, owner c = none → next c = none ∧ prev c = none

theorem family_empty : Family (fun _ : T => none) (fun _ => none) (fun _ : H => none) (fun _ => none) fun _ => [] where
  linked _ := isLinked_nil.2 rfl
  nodup _ := nodup_nil
  mem _ _ := by simp
  outside _ _ := ⟨rfl, rfl⟩

section
variable (hf : Family next prev head owner ls)
include hf

theorem Family.head_eq_none : head h = none ↔ ls h = [] := by
  rw [(hf.linked h).head_eq, head?_eq_none_iff]

/-- The neighbours of an item have its owner. -/
theorem Family.owner_next (hc : owner c = some h) {x : T} (hx : next c = some x) :
    owner x = some h :=
  (hf.mem h x).1 ((hf.linked h).next_mem ((hf.mem h c).2 hc) hx)

theorem Family.owner_prev (hc : owner c = some h) {x : T} (hx : prev c = some x) :
    owner x = some h :=
  (hf.mem h x).1 ((hf.linked h).prev_mem ((hf.mem h c).2 hc) hx)

theorem Family.owner_head {x : T} (hx : head h = some x) : owner x = some h := by
  rw [(hf.linked h).head_eq] at hx
  exact (hf.mem h x).1 (mem_of_head? hx)

theorem Family.head_isSome (hc : owner c = some h) : ∃ x, head h = some x := by
  rw [← Option.ne_none_iff_exists', Ne, hf.head_eq_none]
  exact ne_nil_of_mem ((hf.mem h c).2 hc)

theorem Family.ne_self (hc : owner c = some h) :
    next c ≠ some c ∧ prev c ≠ some c :=
  (hf.linked h).ne_self (hf.nodup h) (by simp) ((hf.mem h c).2 hc)

end

variable [DecidableEq T] [DecidableEq H]

/-- An item without an owner comes to the front of the list of `h`. -/
theorem Family.push (hf : Family next prev head owner ls) (hc : owner c = none)
    (hn : ∀ x, next' x = if x = c then head h else next x)
    (hp : ∀ x, prev' x = if x = c then none else if some x = head h then some c else prev x)
    (hh : ∀ k, head' k = if k = h then some c else head k)
    (ho : ∀ x, owner' x = if x = c then some h else owner x) :
    Family next' prev' head' owner' (update ls h (c :: ls h)) := by
  have hout : ∀ k, c ∉ ls k := by
    intro k hk
    have := (hf.mem k c).1 hk
    rw [hc] at this
    cases this
  have hne : ∀ k x, x ∈ ls k → x ≠ c := by
    rintro k x hx rfl
    exact hout k hx
  refine ⟨fun k => ?_, fun k => ?_, fun k x => ?_, fun x hx => ?_⟩
  · by_cases hk : k = h
    · subst hk
      rw [update_self, hh, if_pos rfl]
      refine (hf.linked k).push (hf.nodup k) (fun x hx => ?_) ?_ ?_ fun x hx => ?_
      · rw [hn, if_neg (hne k x hx)]
      · rw [hn, if_pos rfl]
      · rw [hp, if_pos rfl]
      · rw [hp, if_neg (hne k x hx)]
    · rw [update_of_ne hk, hh, if_neg hk]
      refine (hf.linked k).congr (fun x hx => ?_) fun x hx => ?_
      · rw [hn, if_neg (hne k x hx)]
      · rw [hp, if_neg (hne k x hx), if_neg]
        intro he
        have := hf.owner_head he.symm
        rw [(hf.mem k x).1 hx] at this
        exact hk (Option.some.inj this)
  · by_cases hk : k = h
    · subst hk
      rw [update_self]
      exact nodup_cons.2 ⟨hout k, hf.nodup k⟩
    · rw [update_of_ne hk]
      exact hf.nodup k
  · rw [ho]
    by_cases hk : k = h
    · subst hk
      rw [update_self, mem_cons, hf.mem]
      by_cases hx : x = c
      · simp [hx]
      · simp [hx]
    · rw [update_of_ne hk, hf.mem]
      by_cases hx : x = c
      · subst hx
        simp [hc, Ne.symm hk]
      · simp [hx]
  · rw [ho] at hx
    by_cases hxc : x = c
    · rw [if_pos hxc] at hx
      cases hx
    · rw [if_neg hxc] at hx
      rw [hn, hp, if_neg hxc, if_neg hxc, if_neg]
      · exact hf.outside x hx
      · intro he
        have := hf.owner_head he.symm
        rw [hx] at this
        cases this

/-- An item leaves the list of its owner, wherever it stands. -/
theorem Family.remove (hf : Family next prev head owner ls) (hc : owner c = some h)
    (hn : ∀ x, next' x = if x = c then none else if some x = prev c then next c else next x)
    (hp : ∀ x, prev' x = if x = c then none else if some x = next c then prev c else prev x)
    (hh : ∀ k, head' k = if k = h ∧ prev c = none then next c else head k)
    (ho : ∀ x, owner' x = if x = c then none else owner x) :
    Family next' prev' head' owner' (update ls h ((ls h).erase c)) := by
  have hmem := (hf.mem h c).2 hc
  refine ⟨fun k => ?_, fun k => ?_, fun k x => ?_, fun x hx => ?_⟩
  · by_cases hk : k = h
    · subst hk
      rw [update_self, hh]
      simp only [true_and]
      refine (hf.linked k).remove (hf.nodup k) hmem (fun x _ hx => ?_) fun x _ hx => ?_
      · rw [hn, if_neg hx]
      · rw [hp, if_neg hx]
    · rw [update_of_ne hk, hh, if_neg fun hk' => hk hk'.1]
      have hne : ∀ x, x ∈ ls k → ∀ y, owner y = some h → x ≠ y := by
        rintro x hx y hy rfl
        rw [(hf.mem k x).1 hx] at hy
        exact hk (Option.some.inj hy)
      refine (hf.linked k).congr (fun x hx => ?_) fun x hx => ?_
      · rw [hn, if_neg (hne x hx c hc), if_neg]
        exact fun he => hne x hx x (hf.owner_prev hc he.symm) rfl
      · rw [hp, if_neg (hne x hx c hc), if_neg]
        exact fun he => hne x hx x (hf.owner_next hc he.symm) rfl
  · by_cases hk : k = h
    · subst hk
      rw [update_self]
      exact (hf.nodup k).erase c
    · rw [update_of_ne hk]
      exact hf.nodup k
  · rw [ho]
    by_cases hk : k = h
    · subst hk
      rw [update_self, (hf.nodup k).mem_erase_iff, hf.mem]
      by_cases hx : x = c
      · simp
      · simp
    · rw [update_of_ne hk, hf.mem]
      by_cases hx : x = c
      · subst hx
        simp [hc, Ne.symm hk]
      · simp [hx]
  · by_cases hxc : x = c
    · rw [hn, hp, if_pos hxc, if_pos hxc]
      exact ⟨rfl, rfl⟩
    · rw [ho, if_neg hxc] at hx
      rw [hn, hp, if_neg hxc, if_neg hxc, if_neg, if_neg]
      · exact hf.outside x hx
      · intro he
        have := hf.owner_next hc he.symm
        rw [hx] at this
        cases this
      · intro he
        have := hf.owner_prev hc he.symm
        rw [hx] at this
        cases this

end Family

end Chain
