import Mathlib.Data.Nat.Bitwise
import Mathlib.Data.Nat.Log
import Mathlib.Data.Set.Insert
import Stafeto.Lib.BinaryHeap

/-!
# The heap of timers (kcore/src/timer.rs, `HeapLink` and `Heap`)

A binary heap with its nodes inside the timers: each holds its deadline, its parent and its two children.
Positions count from 1 at the root, and the path to a position follows its bits.

`Rep` ties the links to the nodes by position; every function is first shown to do to the positions what
it is for (two of them change places, the last one goes, a new one comes), and the order of the heap then
follows from the rules of `BinaryHeap`. An assertion or an `expect` that fails is `none`.
-/

namespace Timer

open BinaryHeap Function

/-- `HeapLink` (timer.rs:21). -/
structure HeapLink (T : Type) where
  deadline : Nat
  linked : Bool
  parent : Option T
  left : Option T
  right : Option T

variable {T : Type}

/-- `HeapLink::new`: a timer in no heap. -/
def HeapLink.new : HeapLink T := ⟨0, false, none, none, none⟩

/-- The links of all timers. -/
abbrev Links (T : Type) := T → HeapLink T

/-- `Heap` (timer.rs:80). -/
structure Heap (T : Type) where
  root : Option T
  len : Nat

def Heap.new : Heap T := ⟨none, 0⟩

namespace Links

variable [DecidableEq T]

/-- The links of `t` in the tree. -/
def place (m : Links T) (t : T) (parent left right : Option T) : Links T :=
  update m t { m t with parent := parent, left := left, right := right }

/-- The parent of a timer, if there is one. -/
def setParent (m : Links T) (t : Option T) (parent : Option T) : Links T :=
  match t with
  | none => m
  | some t => update m t { m t with parent := parent }

def setLeft (m : Links T) (t : T) (v : Option T) : Links T := update m t { m t with left := v }
def setRight (m : Links T) (t : T) (v : Option T) : Links T := update m t { m t with right := v }

end Links

namespace Heap

/-- `first` (timer.rs:112). -/
def first (h : Heap T) (m : Links T) : Option Nat := h.root.map fun r => (m r).deadline

/-- `earlier`. -/
def earlier (m : Links T) (a b : T) : Bool := (m a).deadline < (m b).deadline

/-- `at` (timer.rs:130): the timer at a position. Both callers expect one, so a child that is missing on
the way is not told from a position outside the heap. -/
def timerAt (h : Heap T) (m : Links T) (position : Nat) : Option T :=
  if position = 0 ∨ h.len < position then none
  else
    h.root.bind fun root =>
      (List.range (Nat.log2 position)).reverse.foldlM
        (fun t bit => if position >>> bit &&& 1 = 0 then (m t).left else (m t).right) root

variable [DecidableEq T]

/-- `replace_child` (timer.rs:253). -/
def replaceChild (h : Heap T) (m : Links T) (parent : Option T) (old new : T) : Heap T × Links T :=
  match parent with
  | none => ({ h with root := some new }, m)
  | some p => (h, if (m p).left = some old then m.setLeft p (some new) else m.setRight p (some new))

/-- `swap_with_parent` (timer.rs:277). -/
def swapWithParent (h : Heap T) (m : Links T) (t : T) : Option (Heap T × Links T) :=
  (m t).parent.map fun parent =>
    let left := (m t).left
    let right := (m t).right
    let grandparent := (m parent).parent
    let pLeft := (m parent).left
    let pRight := (m parent).right
    let r := h.replaceChild m grandparent parent t
    let m :=
      if pLeft = some t then (r.2.place t grandparent (some parent) pRight).setParent pRight (some t)
      else (r.2.place t grandparent pLeft (some parent)).setParent pLeft (some t)
    let m := m.place parent (some t) left right
    (r.1, (m.setParent left (some parent)).setParent right (some parent))

/-- `sift_up` (timer.rs:321); every turn climbs a level, so the count of the timers bounds the turns. -/
def siftUp : Nat → Heap T → Links T → T → Option (Heap T × Links T)
  | 0, _, _, _ => none
  | fuel + 1, h, m, t =>
    match (m t).parent with
    | none => some (h, m)
    | some p =>
      if earlier m t p then (h.swapWithParent m t).bind fun r => siftUp fuel r.1 r.2 t
      else some (h, m)

/-- The child that `sift_down` compares with: the earlier one. -/
def leastChild (m : Links T) (t : T) : Option T :=
  match (m t).left, (m t).right with
  | some l, some r => if earlier m r l then some r else some l
  | some l, none => some l
  | none, _ => none

/-- `sift_down` (timer.rs:336). -/
def siftDown : Nat → Heap T → Links T → T → Option (Heap T × Links T)
  | 0, _, _, _ => none
  | fuel + 1, h, m, t =>
    match leastChild m t with
    | none => some (h, m)
    | some child =>
      if earlier m child t then (h.swapWithParent m child).bind fun r => siftDown fuel r.1 r.2 t
      else some (h, m)

/-- `insert` (timer.rs:154). -/
def insert (h : Heap T) (m : Links T) (t : T) (deadline : Nat) : Option (Heap T × Links T) :=
  if (m t).linked then none
  else
    let m : Links T := update m t { HeapLink.new with deadline := deadline, linked := true }
    let position := h.len + 1
    if position = 1 then siftUp position { root := some t, len := position } m t
    else
      (h.timerAt m (position / 2)).bind fun parent =>
        let m := m.setParent (some t) (some parent)
        let m := if position % 2 = 0 then m.setLeft parent (some t) else m.setRight parent (some t)
        siftUp position { h with len := position } m t

/-- The last node leaves its place (timer.rs:193). -/
def detach (h : Heap T) (m : Links T) (last : T) : Heap T × Links T :=
  match (m last).parent with
  | none => ({ root := none, len := h.len - 1 }, m)
  | some p =>
    ({ h with len := h.len - 1 }, if (m p).right = some last then m.setRight p none else m.setLeft p none)

/-- And takes the place of `t` (timer.rs:206). -/
def takePlace (h : Heap T) (m : Links T) (t last : T) : Heap T × Links T :=
  let parent := (m t).parent
  let left := (m t).left
  let right := (m t).right
  let r := h.replaceChild m parent t last
  let m := r.2.place last parent left right
  (r.1, (m.setParent left (some last)).setParent right (some last))

/-- The last node goes where it belongs, from the place of `t` (timer.rs:220). -/
def settleIn (h : Heap T) (m : Links T) (last : T) : Option (Heap T × Links T) :=
  if (m last).parent.any (earlier m last) then
    (h.swapWithParent m last).bind fun r => siftUp h.len r.1 r.2 last
  else siftDown h.len h m last

/-- `remove` (timer.rs:187). -/
def remove (h : Heap T) (m : Links T) (t : T) : Option (Heap T × Links T) :=
  if (m t).linked then
    (h.timerAt m h.len).bind fun last =>
      let r := h.detach m last
      (if last = t then some r
        else
          let r := r.1.takePlace r.2 t last
          settleIn r.1 r.2 last).map fun r =>
        (r.1, update r.2 t { r.2 t with linked := false, parent := none, left := none, right := none })
  else none

/-- `pop_expired` (timer.rs:237). -/
def popExpired (h : Heap T) (m : Links T) (now : Nat) : Option (Option T × Heap T × Links T) :=
  match h.root with
  | none => some (none, h, m)
  | some root =>
    if now < (m root).deadline then some (none, h, m)
    else (h.remove m root).map fun r => (some root, r)

end Heap

open Heap

/-! ## What the writes do to the links -/

section Writes

variable [DecidableEq T] (m : Links T) (t x : T) (o p l r v : Option T)

@[simp] theorem place_apply : m.place t p l r x = { m x with
    parent := if x = t then p else (m x).parent
    left := if x = t then l else (m x).left
    right := if x = t then r else (m x).right } := by
  unfold Links.place; by_cases h : x = t <;> simp [h]

@[simp] theorem setParent_apply :
    m.setParent o p x = { m x with parent := if o = some x then p else (m x).parent } := by
  cases o with
  | none => simp [Links.setParent]
  | some t => unfold Links.setParent; by_cases h : x = t <;> simp [h, eq_comm]

@[simp] theorem setLeft_apply : m.setLeft t v x = { m x with left := if x = t then v else (m x).left } := by
  unfold Links.setLeft; by_cases h : x = t <;> simp [h]

@[simp] theorem setRight_apply : m.setRight t v x = { m x with right := if x = t then v else (m x).right } := by
  unfold Links.setRight; by_cases h : x = t <;> simp [h]

end Writes

/-- Only the places in the tree change, and only of timers in `S`. -/
structure Moved (S : Set T) (m m' : Links T) : Prop where
  deadline : ∀ x, (m' x).deadline = (m x).deadline
  linked : ∀ x, (m' x).linked = (m x).linked
  other : ∀ x, x ∉ S → m' x = m x

section Moved

variable {S : Set T} {m m' m'' : Links T} {t : T}

theorem Moved.refl : Moved S m m := ⟨fun _ => rfl, fun _ => rfl, fun _ _ => rfl⟩

theorem Moved.key (h : Moved S m m') : (fun x => (m' x).deadline) = fun x => (m x).deadline := funext h.deadline

theorem Moved.trans (h : Moved S m m') (h' : Moved S m' m'') : Moved S m m'' :=
  ⟨fun x => (h'.deadline x).trans (h.deadline x), fun x => (h'.linked x).trans (h.linked x),
    fun x hx => (h'.other x hx).trans (h.other x hx)⟩

theorem Moved.mono {S' : Set T} (h : Moved S m m') (hS : S ⊆ S') : Moved S' m m' :=
  ⟨h.deadline, h.linked, fun x hx => h.other x fun hm => hx (hS hm)⟩

variable [DecidableEq T]

/-- A write that keeps the deadline and the mark of a timer in `S`. -/
theorem Moved.update (h : Moved S m m') (ht : t ∈ S) {e : HeapLink T} (hd : e.deadline = (m' t).deadline)
    (hl : e.linked = (m' t).linked) : Moved S m (update m' t e) := by
  refine ⟨fun x => ?_, fun x => ?_, fun x hx => ?_⟩
  · by_cases hx : x = t
    · subst hx; simp [hd, h.deadline]
    · simp [hx, h.deadline]
  · by_cases hx : x = t
    · subst hx; simp [hl, h.linked]
    · simp [hx, h.linked]
  · rw [update_of_ne (by rintro rfl; exact hx ht)]
    exact h.other x hx

theorem Moved.place (h : Moved S m m') (ht : t ∈ S) (p l r : Option T) : Moved S m (m'.place t p l r) :=
  h.update ht rfl rfl

theorem Moved.setLeft (h : Moved S m m') (ht : t ∈ S) (v : Option T) : Moved S m (m'.setLeft t v) := h.update ht rfl rfl

theorem Moved.setRight (h : Moved S m m') (ht : t ∈ S) (v : Option T) : Moved S m (m'.setRight t v) := h.update ht rfl rfl

theorem Moved.setParent {o : Option T} (h : Moved S m m') (ho : ∀ x, o = some x → x ∈ S) (p : Option T) :
    Moved S m (m'.setParent o p) := by
  cases o with
  | none => exact h
  | some t => exact h.update (ho t rfl) rfl rfl

end Moved

/-! ## Links and positions -/

/-- The node at a position, if the heap has one there. -/
def pos (n : Nat) (node : Nat → T) (k : Nat) : Option T := if 1 ≤ k ∧ k ≤ n then some (node k) else none

/-- The nodes of a heap. -/
def nodes (n : Nat) (node : Nat → T) : Set T := { x | ∃ k, 1 ≤ k ∧ k ≤ n ∧ node k = x }

/-- The links of the timers are those of a heap with the given nodes. -/
structure Rep (h : Heap T) (m : Links T) (node : Nat → T) : Prop where
  root : h.root = pos h.len node 1
  inj : ∀ i j, 1 ≤ i → i ≤ h.len → 1 ≤ j → j ≤ h.len → node i = node j → i = j
  parent : ∀ k, 1 ≤ k → k ≤ h.len → (m (node k)).parent = pos h.len node (k / 2)
  left : ∀ k, 1 ≤ k → k ≤ h.len → (m (node k)).left = pos h.len node (2 * k)
  right : ∀ k, 1 ≤ k → k ≤ h.len → (m (node k)).right = pos h.len node (2 * k + 1)

variable {h h' : Heap T} {m m' : Links T} {node node' : Nat → T} {n k p : Nat} {t : T}

theorem Rep.of_links (hroot : h.root = pos h.len node 1)
    (hinj : ∀ i j, 1 ≤ i → i ≤ h.len → 1 ≤ j → j ≤ h.len → node i = node j → i = j)
    (hlinks : ∀ k, 1 ≤ k → k ≤ h.len → (m (node k)).parent = pos h.len node (k / 2) ∧
      (m (node k)).left = pos h.len node (2 * k) ∧ (m (node k)).right = pos h.len node (2 * k + 1)) : Rep h m node :=
  ⟨hroot, hinj, fun k h1 hn => (hlinks k h1 hn).1, fun k h1 hn => (hlinks k h1 hn).2.1, fun k h1 hn => (hlinks k h1 hn).2.2⟩

theorem pos_of_le (h1 : 1 ≤ k) (hn : k ≤ n) : pos n node k = some (node k) := if_pos ⟨h1, hn⟩

theorem pos_of_lt (hn : n < k) : pos n node k = none := if_neg fun h => absurd h.2 (by omega)

@[simp] theorem pos_zero : pos n node 0 = none := rfl

theorem pos_eq_some {x : T} : pos n node k = some x ↔ 1 ≤ k ∧ k ≤ n ∧ node k = x := by
  unfold pos
  split
  case isTrue h => simp [h]
  case isFalse h => simp; intro h1 h2; exact absurd ⟨h1, h2⟩ h

theorem Rep.pos_eq (hR : Rep h m node) (h1 : 1 ≤ k) (hn : k ≤ h.len) {j : Nat} :
    pos h.len node j = some (node k) ↔ j = k := by
  rw [pos_eq_some]
  constructor
  · rintro ⟨h2, h3, h4⟩
    exact hR.inj j k h2 h3 h1 hn h4
  · rintro rfl
    exact ⟨h1, hn, rfl⟩

theorem Rep.node_eq (hR : Rep h m node) {j : Nat} (h1 : 1 ≤ j) (hn : j ≤ h.len) (h2 : 1 ≤ k) (hk : k ≤ h.len) :
    node j = node k ↔ j = k :=
  ⟨hR.inj j k h1 hn h2 hk, fun h => h ▸ rfl⟩

theorem mem_nodes (h1 : 1 ≤ k) (hn : k ≤ n) : node k ∈ nodes n node := ⟨k, h1, hn, rfl⟩

theorem mem_nodes_of_pos {x : T} (hp : pos n node k = some x) : x ∈ nodes n node := by
  obtain ⟨h1, h2, rfl⟩ := pos_eq_some.1 hp
  exact mem_nodes h1 h2

/-! ## `swap_with_parent` -/

section Swap

variable [DecidableEq T]

omit [DecidableEq T] in
theorem pos_swap {q : Nat} (h1 : 1 ≤ p) (hp : p ≤ n) (h2 : 1 ≤ q) (hq : q ≤ n) (k : Nat) :
    pos n (node ∘ Equiv.swap p q) k = if k = p then some (node q) else if k = q then some (node p) else pos n node k := by
  unfold pos
  simp only [comp_apply, Equiv.swap_apply_def]
  by_cases hkp : k = p
  · subst hkp; simp [h1, hp]
  · by_cases hkq : k = q
    · subst hkq; simp [h2, hq, hkp]
    · simp [hkp, hkq]

theorem replaceChild_apply (h : Heap T) (m : Links T) (parent : Option T) (old new x : T) :
    (h.replaceChild m parent old new).2 x = { m x with
      left := if parent = some x ∧ (m x).left = some old then some new else (m x).left
      right := if parent = some x ∧ (m x).left ≠ some old then some new else (m x).right } := by
  cases parent with
  | none => simp [replaceChild]
  | some p =>
    unfold replaceChild
    by_cases hl : (m p).left = some old
    · by_cases hx : x = p
      · subst hx; simp [hl]
      · simp [hl, hx, Ne.symm hx]
    · by_cases hx : x = p
      · subst hx; simp [hl]
      · simp [hl, hx, Ne.symm hx]

theorem replaceChild_len (h : Heap T) (m : Links T) (parent : Option T) (old new : T) :
    (h.replaceChild m parent old new).1.len = h.len := by
  cases parent <;> rfl

theorem replaceChild_root (h : Heap T) (m : Links T) (parent : Option T) (old new : T) :
    (h.replaceChild m parent old new).1.root = if parent = none then some new else h.root := by
  cases parent <;> rfl

theorem Moved.replaceChild {S : Set T} {parent : Option T} {old new : T} (hM : Moved S m m')
    (hp : ∀ x, parent = some x → x ∈ S) : Moved S m (h.replaceChild m' parent old new).2 := by
  cases parent with
  | none => exact hM
  | some p =>
    simp only [Heap.replaceChild]
    split_ifs
    · exact hM.setLeft (hp p rfl) _
    · exact hM.setRight (hp p rfl) _

theorem swapWithParent_links {parent : T} (hp : (m t).parent = some parent) :
    ∃ h' m', h.swapWithParent m t = some (h', m') ∧ h'.len = h.len ∧
      h'.root = (if (m parent).parent = none then some t else h.root) ∧
      (∀ x, m' x = { m x with
        parent := if (m t).right = some x ∨ (m t).left = some x then some parent
          else if x = parent then some t
          else if (if (m parent).left = some t then (m parent).right else (m parent).left) = some x then some t
          else if x = t then (m parent).parent else (m x).parent
        left := if x = parent then (m t).left
          else if x = t then (if (m parent).left = some t then some parent else (m parent).left)
          else if (m parent).parent = some x ∧ (m x).left = some parent then some t else (m x).left
        right := if x = parent then (m t).right
          else if x = t then (if (m parent).left = some t then (m parent).right else some parent)
          else if (m parent).parent = some x ∧ (m x).left ≠ some parent then some t else (m x).right }) ∧
      ∀ S : Set T, t ∈ S → parent ∈ S → (∀ x y, x ∈ S → (m x).parent = some y ∨ (m x).left = some y ∨
        (m x).right = some y → y ∈ S) → Moved S m m' := by
  unfold swapWithParent
  rw [hp]
  refine ⟨_, _, rfl, replaceChild_len .., replaceChild_root .., fun x => ?_, fun S ht hpS hS => ?_⟩
  · by_cases hl : (m parent).left = some t
    · simp only [hl, if_true, setParent_apply, place_apply, replaceChild_apply]
      split_ifs <;> simp_all
    · simp only [hl, if_false, setParent_apply, place_apply, replaceChild_apply]
      split_ifs <;> simp_all
  · have hM : Moved S m (h.replaceChild m (m parent).parent parent t).2 :=
      Moved.refl.replaceChild fun x hx => hS parent x hpS (Or.inl hx)
    refine ((Moved.place ?_ hpS _ _ _).setParent (fun x hx => hS t x ht (Or.inr (Or.inl hx))) _).setParent
      (fun x hx => hS t x ht (Or.inr (Or.inr hx))) _
    split_ifs
    · exact (hM.place ht _ _ _).setParent (fun x hx => hS parent x hpS (Or.inr (Or.inr hx))) _
    · exact (hM.place ht _ _ _).setParent (fun x hx => hS parent x hpS (Or.inr (Or.inl hx))) _

omit [DecidableEq T] in
theorem Rep.closed (hR : Rep h m node) (x y : T) (hx : x ∈ nodes h.len node)
    (hy : (m x).parent = some y ∨ (m x).left = some y ∨ (m x).right = some y) : y ∈ nodes h.len node := by
  obtain ⟨k, h1, hn, rfl⟩ := hx
  rw [hR.parent k h1 hn, hR.left k h1 hn, hR.right k h1 hn] at hy
  rcases hy with hy | hy | hy
  · exact mem_nodes_of_pos hy
  · exact mem_nodes_of_pos hy
  · exact mem_nodes_of_pos hy

/-- **`swap_with_parent`**: two nodes change places. -/
theorem swapWithParent_spec (hR : Rep h m node) (h2 : 2 ≤ p) (hp : p ≤ h.len) :
    ∃ h' m', h.swapWithParent m (node p) = some (h', m') ∧ h'.len = h.len ∧
      Rep h' m' (node ∘ Equiv.swap p (p / 2)) ∧ Moved (nodes h.len node) m m' := by
  obtain ⟨q, hq⟩ : ∃ q, q = p / 2 := ⟨_, rfl⟩
  have hp1 : 1 ≤ p := by omega
  have hq1 : 1 ≤ q := by omega
  have hqn : q ≤ h.len := by omega
  have hparent : (m (node p)).parent = some (node q) := by
    rw [hR.parent p hp1 hp, ← hq, pos_of_le hq1 hqn]
  obtain ⟨h', m', he, hlen, hroot, hlinks, hM⟩ := swapWithParent_links hparent
  simp only [hR.parent q hq1 hqn, hR.left q hq1 hqn, hR.right q hq1 hqn, hR.left p hp1 hp, hR.right p hp1 hp,
    hR.pos_eq hp1 hp] at hroot hlinks
  have hswap : ∀ k, pos h.len (node ∘ Equiv.swap p q) k =
      if k = p then some (node q) else if k = q then some (node p) else pos h.len node k := pos_swap hp1 hp hq1 hqn
  -- a position of the new heap and the node that stands there
  have hnode : ∀ k, 1 ≤ k → k ≤ h.len → ∃ j, 1 ≤ j ∧ j ≤ h.len ∧ (node ∘ Equiv.swap p q) k = node j ∧
      (k = p ∧ j = q ∨ k = q ∧ j = p ∨ k ≠ p ∧ k ≠ q ∧ j = k) := by
    intro k h1 hn
    by_cases hkp : k = p
    · exact ⟨q, hq1, hqn, by simp [hkp], Or.inl ⟨hkp, rfl⟩⟩
    · by_cases hkq : k = q
      · exact ⟨p, hp1, hp, by simp [hkq], Or.inr (Or.inl ⟨hkq, rfl⟩)⟩
      · exact ⟨k, h1, hn, by simp [Equiv.swap_apply_of_ne_of_ne hkp hkq], Or.inr (Or.inr ⟨hkp, hkq, rfl⟩)⟩
  rw [← hq]
  refine ⟨h', m', he, hlen, .of_links ?_ ?_ ?_,
    hM _ (mem_nodes hp1 hp) (mem_nodes hq1 hqn) fun x y hx hy => hR.closed x y hx hy⟩
  · rw [hroot, hlen, hswap, if_neg (show ¬1 = p by omega)]
    by_cases hq' : q = 1
    · rw [if_pos (by rw [hq']; rfl), if_pos hq'.symm]
    · rw [if_neg (by rw [pos_of_le (by omega) (by omega)]; simp), if_neg (Ne.symm hq'), hR.root]
  · intro i j hi1 hin hj1 hjn heq
    rw [hlen] at hin hjn
    obtain ⟨i', hi1', hin', hi', hci⟩ := hnode i hi1 hin
    obtain ⟨j', hj1', hjn', hj', hcj⟩ := hnode j hj1 hjn
    rw [hi', hj', hR.node_eq hi1' hin' hj1' hjn'] at heq
    omega
  · intro k h1 hn
    rw [hlen] at hn ⊢
    obtain ⟨j, hj1, hjn, hj, hjk⟩ := hnode k h1 hn
    rw [hj, hswap, hswap, hswap, hlinks]
    have hsib : ((if 2 * q = p then pos h.len node (2 * q + 1) else pos h.len node (2 * q)) = some (node j)) ↔
        (if 2 * q = p then 2 * q + 1 else 2 * q) = j := by
      split_ifs
      · exact hR.pos_eq hj1 hjn
      · exact hR.pos_eq hj1 hjn
    simp only [hR.parent j hj1 hjn, hR.left j hj1 hjn, hR.right j hj1 hjn, hR.node_eq hj1 hjn hq1 hqn,
      hR.node_eq hj1 hjn hp1 hp, hR.pos_eq hj1 hjn, hR.pos_eq hq1 hqn, hsib, ne_eq]
    refine ⟨?_, ?_, ?_⟩ <;> obtain ⟨rfl, rfl⟩ | ⟨rfl, rfl⟩ | ⟨hkp, hkq, rfl⟩ := hjk <;> split_ifs <;> first | rfl | omega

end Swap

/-! ## `sift_up` and `sift_down` -/

section Sift

variable [DecidableEq T]

/-- A heap in order, with `S` as its timers. -/
def Holds (h : Heap T) (m : Links T) (S : Set T) : Prop :=
  ∃ node, Rep h m node ∧ Ordered (fun x => (m x).deadline) h.len node ∧ S = nodes h.len node

omit [DecidableEq T] in
theorem nodes_swap {q : Nat} (h1 : 1 ≤ p) (hp : p ≤ n) (h2 : 1 ≤ q) (hq : q ≤ n) :
    nodes n (node ∘ Equiv.swap p q) = nodes n node := by
  have hmem : ∀ k, 1 ≤ k → k ≤ n → 1 ≤ Equiv.swap p q k ∧ Equiv.swap p q k ≤ n := by
    intro k hk1 hkn
    rw [Equiv.swap_apply_def]
    split_ifs <;> omega
  ext x
  constructor
  · rintro ⟨k, hk1, hkn, rfl⟩
    exact ⟨_, (hmem k hk1 hkn).1, (hmem k hk1 hkn).2, rfl⟩
  · rintro ⟨k, hk1, hkn, rfl⟩
    exact ⟨_, (hmem k hk1 hkn).1, (hmem k hk1 hkn).2, by simp⟩

/-- **`sift_up`** puts a heap right whose order fails only above `t`. -/
theorem siftUp_spec (fuel : Nat) {m : Links T} {p : Nat} (hR : Rep h m node)
    (h1 : 1 ≤ p) (hp : p ≤ h.len) (hfuel : p ≤ fuel) (hO : OrderedUp (fun x => (m x).deadline) h.len node p) :
    ∃ h' m', siftUp fuel h m (node p) = some (h', m') ∧ h'.len = h.len ∧ Holds h' m' (nodes h.len node) ∧
      Moved (nodes h.len node) m m' := by
  induction fuel generalizing h m node p with
  | zero => omega
  | succ fuel ih =>
    rw [siftUp, hR.parent p h1 hp]
    by_cases h2 : p = 1
    · subst h2
      exact ⟨h, m, rfl, rfl, ⟨node, hR, hO.done (by omega), rfl⟩, Moved.refl⟩
    · rw [pos_of_le (by omega) (by omega)]
      by_cases hlt : (m (node p)).deadline < (m (node (p / 2))).deadline
      · obtain ⟨h₁, m₁, he, hlen, hR₁, hM₁⟩ := swapWithParent_spec hR (by omega) hp
        have hO₁ := hO.step (by omega) hp hlt
        rw [← hM₁.key, ← hlen] at hO₁
        obtain ⟨h', m', he', hlen', hH, hM⟩ := ih hR₁ (by omega) (by omega) (by omega) hO₁
        rw [hlen, nodes_swap h1 hp (by omega) (by omega)] at hH hM
        refine ⟨h', m', ?_, hlen'.trans hlen, hH, hM₁.trans hM⟩
        simpa [earlier, hlt, he] using he'
      · refine ⟨h, m, ?_, rfl, ⟨node, hR, hO.done fun _ => Nat.le_of_not_lt hlt, rfl⟩, Moved.refl⟩
        simp [earlier, hlt]

omit [DecidableEq T] in
/-- The child `sift_down` looks at is the least one. -/
theorem leastChild_spec (hR : Rep h m node) (h1 : 1 ≤ p) (hp : p ≤ h.len) :
    (leastChild m (node p) = none ∧ h.len < 2 * p) ∨
      ∃ c, leastChild m (node p) = some (node c) ∧ 2 ≤ c ∧ c ≤ h.len ∧ c / 2 = p ∧
        ∀ k, k ≤ h.len → k / 2 = c / 2 → 2 ≤ k → (m (node c)).deadline ≤ (m (node k)).deadline := by
  unfold leastChild
  rw [hR.left p h1 hp, hR.right p h1 hp]
  by_cases hl : 2 * p ≤ h.len
  · right
    rw [pos_of_le (by omega) hl]
    by_cases hr : 2 * p + 1 ≤ h.len
    · rw [pos_of_le (by omega) hr]
      by_cases hlt : (m (node (2 * p + 1))).deadline < (m (node (2 * p))).deadline
      · refine ⟨2 * p + 1, by simp [earlier, hlt], by omega, hr, by omega, fun k hk hkp _ => ?_⟩
        obtain rfl | rfl : k = 2 * p ∨ k = 2 * p + 1 := by omega
        · exact hlt.le
        · exact le_rfl
      · refine ⟨2 * p, by simp [earlier, hlt], by omega, hl, by omega, fun k hk hkp _ => ?_⟩
        obtain rfl | rfl : k = 2 * p ∨ k = 2 * p + 1 := by omega
        · exact le_rfl
        · exact Nat.le_of_not_lt hlt
    · rw [pos_of_lt (by omega)]
      refine ⟨2 * p, rfl, by omega, hl, by omega, fun k hk hkp _ => ?_⟩
      obtain rfl : k = 2 * p := by omega
      exact le_rfl
  · left
    rw [pos_of_lt (by omega)]
    exact ⟨rfl, by omega⟩

/-- **`sift_down`** puts a heap right whose order fails only below `t`. -/
theorem siftDown_spec (fuel : Nat) {m : Links T} {p : Nat} (hR : Rep h m node)
    (h1 : 1 ≤ p) (hp : p ≤ h.len) (hfuel : h.len < p + fuel) (hO : OrderedDown (fun x => (m x).deadline) h.len node p) :
    ∃ h' m', siftDown fuel h m (node p) = some (h', m') ∧ h'.len = h.len ∧ Holds h' m' (nodes h.len node) ∧
      Moved (nodes h.len node) m m' := by
  induction fuel generalizing h m node p with
  | zero => omega
  | succ fuel ih =>
    rw [siftDown]
    rcases leastChild_spec hR h1 hp with ⟨hnone, hleaf⟩ | ⟨c, hsome, hc2, hcn, rfl, hleast⟩
    · rw [hnone]
      exact ⟨h, m, rfl, rfl, ⟨node, hR, hO.done fun k _ hkn hk => by omega, rfl⟩, Moved.refl⟩
    · rw [hsome]
      by_cases hlt : (m (node c)).deadline < (m (node (c / 2))).deadline
      · obtain ⟨h₁, m₁, he, hlen, hR₁, hM₁⟩ := swapWithParent_spec hR hc2 hcn
        have hO₁ := hO.step hc2 hcn hleast hlt
        rw [← hM₁.key, ← hlen] at hO₁
        obtain ⟨h', m', he', hlen', hH, hM⟩ := ih hR₁ (by omega) (by omega) (by omega) hO₁
        rw [hlen, nodes_swap (by omega) hcn (by omega) (by omega)] at hH hM
        refine ⟨h', m', ?_, hlen'.trans hlen, hH, hM₁.trans hM⟩
        simpa [earlier, hlt, he] using he'
      · refine ⟨h, m, ?_, rfl, ⟨node, hR, hO.done fun k hk hkn hkp => ?_, rfl⟩, Moved.refl⟩
        · simp [earlier, hlt]
        · exact le_trans (Nat.le_of_not_lt hlt) (hleast k hkn hkp hk)

end Sift

/-! ## The place of a position -/

/-- The bits of a position, from the one below its highest, lead to its node. -/
theorem path_spec (hR : Rep h m node) (hk : k ≤ h.len) (b : Nat) (hb : 1 ≤ k >>> b) :
    (List.range b).reverse.foldlM (fun t bit => if k >>> bit &&& 1 = 0 then (m t).left else (m t).right)
      (node (k >>> b)) = some (node k) := by
  induction b with
  | zero => rfl
  | succ b ih =>
    have hhalf : k >>> (b + 1) = k >>> b / 2 := by rw [Nat.shiftRight_succ]
    have hle : k >>> b ≤ h.len := le_trans (Nat.shiftRight_le ..) hk
    rw [hhalf] at hb ⊢
    rw [List.range_succ, List.reverse_append, List.reverse_singleton, List.singleton_append, List.foldlM_cons,
      hR.left _ hb (by omega), hR.right _ hb (by omega), Nat.and_one_is_mod]
    have hstep : (if k >>> b % 2 = 0 then pos h.len node (2 * (k >>> b / 2)) else pos h.len node (2 * (k >>> b / 2) + 1)) =
        some (node (k >>> b)) := by
      split_ifs with h0
      · rw [show 2 * (k >>> b / 2) = k >>> b by omega]
        exact pos_of_le (by omega) hle
      · rw [show 2 * (k >>> b / 2) + 1 = k >>> b by omega]
        exact pos_of_le (by omega) hle
    rw [hstep]
    exact ih (by omega)

theorem timerAt_eq (hR : Rep h m node) (h1 : 1 ≤ k) (hk : k ≤ h.len) : h.timerAt m k = some (node k) := by
  have hlog : k >>> Nat.log2 k = 1 := by
    rw [Nat.shiftRight_eq_div_pow]
    have h2 := Nat.log2_self_le (show k ≠ 0 by omega)
    have h3 := Nat.lt_log2_self (n := k)
    rw [pow_succ] at h3
    exact Nat.div_eq_of_lt_le (by omega) (by omega)
  have := path_spec hR hk (Nat.log2 k) (by omega)
  rw [hlog] at this
  rw [timerAt, if_neg (by omega), hR.root, pos_of_le (le_refl 1) (by omega)]
  exact this

theorem timerAt_none (hk : k = 0 ∨ h.len < k) : h.timerAt m k = none := if_pos hk

/-- A timer of the heap stands at some position, as `at` finds it. -/
theorem mem_nodes_iff (hR : Rep h m node) {x : T} : x ∈ nodes h.len node ↔ ∃ k, h.timerAt m k = some x := by
  constructor
  · rintro ⟨k, h1, hn, rfl⟩
    exact ⟨k, timerAt_eq hR h1 hn⟩
  · rintro ⟨k, hk⟩
    by_cases hout : k = 0 ∨ h.len < k
    · rw [timerAt_none hout] at hk
      cases hk
    · rw [timerAt_eq hR (by omega) (by omega)] at hk
      cases hk
      exact mem_nodes (by omega) (by omega)

/-! ## `insert` -/

theorem rep_empty (hn : h.len = 0) (hroot : h.root = none) : Rep h m node := by
  have hzero : ∀ k, 1 ≤ k → ¬k ≤ h.len := by omega
  refine ⟨hroot.trans (if_neg fun hk => hzero 1 hk.1 hk.2).symm, fun i _ hi hin => absurd hin (hzero i hi), ?_, ?_, ?_⟩
  all_goals exact fun k hk hkn => absurd hkn (hzero k hk)

theorem Rep.congr (hR : Rep h m node) (hm : ∀ x ∈ nodes h.len node, m' x = m x) : Rep h m' node := by
  refine .of_links hR.root hR.inj fun k h1 hn => ?_
  rw [hm _ (mem_nodes h1 hn)]
  exact ⟨hR.parent k h1 hn, hR.left k h1 hn, hR.right k h1 hn⟩

theorem ordered_congr (hO : Ordered (fun x => (m x).deadline) n node)
    (hm : ∀ x ∈ nodes n node, (m' x).deadline = (m x).deadline) : Ordered (fun x => (m' x).deadline) n node := by
  intro k h2 hn
  simp only [hm _ (mem_nodes (show 1 ≤ k by omega) hn), hm _ (mem_nodes (show 1 ≤ k / 2 by omega) (by omega))]
  exact hO k h2 hn

/-- What lies outside a heap does not matter to it. -/
theorem Holds.congr {S : Set T} (hH : Holds h m S) (hm : ∀ x ∈ S, m' x = m x) : Holds h m' S := by
  obtain ⟨node, hR, hO, rfl⟩ := hH
  exact ⟨node, hR.congr hm, ordered_congr hO fun x hx => by rw [hm x hx], rfl⟩

theorem pos_append (k : Nat) : pos (n + 1) (update node (n + 1) t) k = if k = n + 1 then some t else pos n node k := by
  unfold pos
  by_cases hk : k = n + 1
  · subst hk; simp
  · simp only [update_of_ne hk, if_neg hk]
    congr 1
    simp only [eq_iff_iff]
    omega

theorem pos_append_of_ne (hk : k ≠ n + 1) : pos (n + 1) (update node (n + 1) t) k = pos n node k := by
  rw [pos_append, if_neg hk]

theorem nodes_append : nodes (n + 1) (update node (n + 1) t) = Insert.insert t (nodes n node) := by
  ext x
  constructor
  · rintro ⟨k, h1, hn, rfl⟩
    by_cases hk : k = n + 1
    · left; simp [hk]
    · right
      exact ⟨k, h1, by omega, by rw [update_of_ne hk]⟩
  · rintro (rfl | ⟨k, h1, hn, rfl⟩)
    · exact ⟨n + 1, by omega, le_rfl, by simp⟩
    · exact ⟨k, h1, by omega, by rw [update_of_ne (by omega)]⟩

section Insert

variable [DecidableEq T]

/-- A new node below the node at half its position. -/
theorem rep_append (hR : Rep h m node) (ht : t ∉ nodes h.len node) (hm : (m t).left = none ∧ (m t).right = none)
    (hn : 1 ≤ h.len) :
    Rep { h with len := h.len + 1 }
      (if (h.len + 1) % 2 = 0 then (m.setParent (some t) (some (node ((h.len + 1) / 2)))).setLeft (node ((h.len + 1) / 2)) (some t)
        else (m.setParent (some t) (some (node ((h.len + 1) / 2)))).setRight (node ((h.len + 1) / 2)) (some t))
      (update node (h.len + 1) t) := by
  obtain ⟨q, hq⟩ : ∃ q, q = (h.len + 1) / 2 := ⟨_, rfl⟩
  have hq1 : 1 ≤ q := by omega
  have hqn : q ≤ h.len := by omega
  have hne : ∀ k, 1 ≤ k → k ≤ h.len → node k ≠ t := fun k h1 hk he => ht (he ▸ mem_nodes h1 hk)
  have hnode : ∀ k, 1 ≤ k → k ≤ h.len + 1 → (k = h.len + 1 ∧ update node (h.len + 1) t k = t) ∨
      (k ≤ h.len ∧ update node (h.len + 1) t k = node k) := by
    intro k h1 hk
    by_cases hkn : k = h.len + 1
    · left; exact ⟨hkn, by simp [hkn]⟩
    · right; exact ⟨by omega, by rw [update_of_ne hkn]⟩
  rw [← hq]
  refine .of_links ?_ ?_ fun k h1 hk => ?_
  · rw [pos_append_of_ne (by omega)]
    exact hR.root
  · intro i j hi1 hin hj1 hjn heq
    rcases hnode i hi1 hin with ⟨hi, hie⟩ | ⟨hi, hie⟩ <;> rcases hnode j hj1 hjn with ⟨hj, hje⟩ | ⟨hj, hje⟩ <;>
      rw [hie, hje] at heq
    · omega
    · exact absurd heq.symm (hne j hj1 hj)
    · exact absurd heq (hne i hi1 hi)
    · exact hR.inj i j hi1 hi hj1 hj heq
  · rcases hnode k h1 hk with ⟨rfl, hke⟩ | ⟨hkn, hke⟩
    · rw [pos_append_of_ne (by omega), pos_append_of_ne (by omega), pos_append_of_ne (by omega), ← hq,
        pos_of_le hq1 hqn, pos_of_lt (by omega), pos_of_lt (by omega)]
      split_ifs <;> simp [(hne q hq1 hqn).symm, hm]
    · have hqk := hR.node_eq h1 hkn hq1 hqn
      rw [hke, pos_append_of_ne (by omega)]
      rw [pos_append, pos_append, ← hR.parent k h1 hkn, ← hR.left k h1 hkn, ← hR.right k h1 hkn]
      have hkt := (hne k h1 hkn).symm
      split_ifs <;> simp [hkt, hqk] <;> omega

omit [DecidableEq T] in
theorem rep_single (hn : h.len = 0) (hm : (m t).parent = none ∧ (m t).left = none ∧ (m t).right = none) :
    Rep { root := some t, len := h.len + 1 } m (update node (h.len + 1) t) := by
  have hnode : ∀ k, 1 ≤ k → k ≤ h.len + 1 → k = 1 ∧ update node (h.len + 1) t k = t := by
    intro k h1 hk
    obtain rfl : k = h.len + 1 := by omega
    exact ⟨by omega, by simp⟩
  refine .of_links ?_ (fun i j hi1 hin hj1 hjn _ => ?_) fun k h1 hk => ?_
  · rw [pos_append, if_pos (by omega)]
  · have := hnode i hi1 hin
    have := hnode j hj1 hjn
    omega
  · obtain ⟨rfl, hke⟩ := hnode k h1 hk
    rw [hke, pos_of_lt (show h.len + 1 < 2 * 1 by omega), pos_of_lt (show h.len + 1 < 2 * 1 + 1 by omega)]
    exact hm

theorem insert_spec {S : Set T} (hH : Holds h m S) (ht : t ∉ S) (hl : (m t).linked = false) (deadline : Nat) :
    ∃ h' m', h.insert m t deadline = some (h', m') ∧ Holds h' m' (Insert.insert t S) ∧
      Moved (Insert.insert t S) (update m t ⟨deadline, true, none, none, none⟩) m' := by
  obtain ⟨node, hR, hO, rfl⟩ := hH
  obtain ⟨m₁, hm₁⟩ : ∃ m₁ : Links T, m₁ = update m t ⟨deadline, true, none, none, none⟩ := ⟨_, rfl⟩
  have hself : m₁ t = ⟨deadline, true, none, none, none⟩ := by rw [hm₁, update_self]
  have hother : ∀ x ∈ nodes h.len node, m₁ x = m x := by
    intro x hx
    rw [hm₁, update_of_ne (by rintro rfl; exact ht hx)]
  have hR₁ := hR.congr hother
  have hO₁ : Ordered (fun x => (m₁ x).deadline) h.len node := ordered_congr hO fun x hx => by rw [hother x hx]
  have hup : OrderedUp (fun x => (m₁ x).deadline) (h.len + 1) (update node (h.len + 1) t) (h.len + 1) :=
    hO₁.append fun k hk => update_of_ne (by omega) ..
  rw [Heap.insert, hl, if_neg (by simp)]
  simp only [HeapLink.new, ← hm₁]
  rw [← nodes_append]
  by_cases hz : h.len = 0
  · rw [if_pos (by omega)]
    have hRn : Rep { root := some t, len := h.len + 1 } m₁ (update node (h.len + 1) t) :=
      rep_single hz (by rw [hself]; exact ⟨rfl, rfl, rfl⟩)
    obtain ⟨h', m', he, -, hH, hM⟩ := siftUp_spec (h.len + 1) hRn (show 1 ≤ h.len + 1 by omega) le_rfl le_rfl hup
    rw [update_self] at he
    exact ⟨h', m', he, hH, hM⟩
  · rw [if_neg (by omega), timerAt_eq hR₁ (by omega) (by omega)]
    have hRn := rep_append hR₁ ht (by rw [hself]; exact ⟨rfl, rfl⟩) (by omega)
    have hmem : ∀ x ∈ nodes h.len node, x ∈ nodes (h.len + 1) (update node (h.len + 1) t) := by
      intro x hx
      rw [nodes_append]
      exact Or.inr hx
    have ht' : t ∈ nodes (h.len + 1) (update node (h.len + 1) t) := by
      rw [nodes_append]
      exact Or.inl rfl
    have hM₁ : Moved (nodes (h.len + 1) (update node (h.len + 1) t)) m₁
        (m₁.setParent (some t) (some (node ((h.len + 1) / 2)))) :=
      Moved.refl.setParent (fun x hx => by cases hx; exact ht') _
    have hq := hmem (node ((h.len + 1) / 2)) (mem_nodes (by omega) (by omega))
    simp only [Option.bind_some]
    obtain ⟨m₂, hm₂⟩ : ∃ m₂ : Links T, m₂ = if (h.len + 1) % 2 = 0
      then (m₁.setParent (some t) (some (node ((h.len + 1) / 2)))).setLeft (node ((h.len + 1) / 2)) (some t)
      else (m₁.setParent (some t) (some (node ((h.len + 1) / 2)))).setRight (node ((h.len + 1) / 2)) (some t) := ⟨_, rfl⟩
    have hM₂ : Moved (nodes (h.len + 1) (update node (h.len + 1) t)) m₁ m₂ := by
      rw [hm₂]
      split_ifs
      · exact hM₁.setLeft hq _
      · exact hM₁.setRight hq _
    rw [← hm₂] at hRn ⊢
    rw [← hM₂.key] at hup
    obtain ⟨h', m', he, -, hH, hM⟩ := siftUp_spec (h.len + 1) hRn (show 1 ≤ h.len + 1 by omega) le_rfl le_rfl hup
    rw [update_self] at he
    exact ⟨h', m', he, hH, hM₂.trans hM⟩

end Insert

/-! ## `remove` -/

theorem pos_cut (hn : 1 ≤ n) (k : Nat) : pos (n - 1) node k = if k = n then none else pos n node k := by
  unfold pos
  by_cases hk : k = n
  · rw [if_pos hk, if_neg (by omega)]
  · rw [if_neg hk]
    congr 1
    simp only [eq_iff_iff]
    omega

section Remove

variable [DecidableEq T]

/-- The last node leaves its place. -/
theorem detach_spec (hR : Rep h m node) (hn : 1 ≤ h.len) :
    (h.detach m (node h.len)).1.len = h.len - 1 ∧
      Rep (h.detach m (node h.len)).1 (h.detach m (node h.len)).2 node ∧
      Moved (nodes h.len node) m (h.detach m (node h.len)).2 := by
  unfold detach
  rw [hR.parent _ hn le_rfl]
  by_cases h1 : h.len = 1
  · -- nothing is left
    have hnone : pos h.len node (h.len / 2) = none := by rw [h1]; rfl
    rw [hnone]
    exact ⟨rfl, rep_empty (by simp only; omega) rfl, Moved.refl⟩
  · obtain ⟨q, hq⟩ : ∃ q, q = h.len / 2 := ⟨_, rfl⟩
    have hq1 : 1 ≤ q := by omega
    have hqn : q ≤ h.len := by omega
    rw [← hq, pos_of_le hq1 hqn]
    simp only [hR.right q hq1 hqn, hR.pos_eq hn le_rfl]
    refine ⟨trivial, .of_links ?_ (fun i j hi1 hin hj1 hjn => hR.inj i j hi1 (by simp only at hin; omega) hj1
      (by simp only at hjn; omega)) fun k hk1 hkn => ?_, ?_⟩
    · rw [pos_cut hn, if_neg (by omega)]
      exact hR.root
    · simp only at hkn
      have hqk := hR.node_eq hk1 (by omega) hq1 hqn
      rw [pos_cut hn, pos_cut hn, pos_cut hn, if_neg (show ¬k / 2 = h.len by omega), ← hR.parent k hk1 (by omega),
        ← hR.left k hk1 (by omega), ← hR.right k hk1 (by omega)]
      split_ifs <;> simp [hqk] <;> omega
    · split_ifs
      · exact Moved.refl.setRight (mem_nodes hq1 hqn) _
      · exact Moved.refl.setLeft (mem_nodes hq1 hqn) _

omit [DecidableEq T] in
theorem pos_update (h1 : 1 ≤ p) (hp : p ≤ n) (k : Nat) :
    pos n (update node p t) k = if k = p then some t else pos n node k := by
  unfold pos
  by_cases hk : k = p
  · subst hk; simp [h1, hp]
  · simp [hk]

/-- A timer outside the heap takes the place of a node. -/
theorem takePlace_spec {last : T} (hR : Rep h m node) (h1 : 1 ≤ p) (hp : p ≤ h.len) (hl : last ∉ nodes h.len node) :
    (h.takePlace m (node p) last).1.len = h.len ∧
      Rep (h.takePlace m (node p) last).1 (h.takePlace m (node p) last).2 (update node p last) ∧
      Moved (Insert.insert last (nodes h.len node)) m (h.takePlace m (node p) last).2 := by
  obtain ⟨r, hr⟩ : ∃ r, r = h.takePlace m (node p) last := ⟨_, rfl⟩
  have hlen : r.1.len = h.len := by rw [hr]; exact replaceChild_len ..
  have hroot : r.1.root = if pos h.len node (p / 2) = none then some last else h.root := by
    rw [hr, ← hR.parent p h1 hp]
    exact replaceChild_root ..
  have hlinks : ∀ x, r.2 x = { m x with
      parent := if pos h.len node (2 * p + 1) = some x ∨ pos h.len node (2 * p) = some x then some last
        else if x = last then pos h.len node (p / 2) else (m x).parent
      left := if x = last then pos h.len node (2 * p)
        else if pos h.len node (p / 2) = some x ∧ (m x).left = some (node p) then some last else (m x).left
      right := if x = last then pos h.len node (2 * p + 1)
        else if pos h.len node (p / 2) = some x ∧ (m x).left ≠ some (node p) then some last else (m x).right } := by
    intro x
    rw [hr, ← hR.parent p h1 hp, ← hR.left p h1 hp, ← hR.right p h1 hp]
    simp only [takePlace, setParent_apply, place_apply, replaceChild_apply]
    split_ifs <;> simp_all
  have hne : ∀ k, 1 ≤ k → k ≤ h.len → node k ≠ last := fun k h1 hk he => hl (he ▸ mem_nodes h1 hk)
  have hnone : ∀ k, pos h.len node k ≠ some last := fun k he => hl (mem_nodes_of_pos he)
  have hnode : ∀ k, 1 ≤ k → k ≤ h.len → (k = p ∧ update node p last k = last) ∨
      (k ≠ p ∧ update node p last k = node k) := by
    intro k hk1 hk
    by_cases hkp : k = p
    · left; exact ⟨hkp, by simp [hkp]⟩
    · right; exact ⟨hkp, by simp [hkp]⟩
  rw [← hr]
  refine ⟨hlen, .of_links ?_ ?_ ?_, ?_⟩
  · rw [hroot, hlen, pos_update h1 hp]
    by_cases hp1 : p = 1
    · rw [if_pos (by rw [hp1]; rfl), if_pos hp1.symm]
    · rw [if_neg (by rw [pos_of_le (by omega) (by omega)]; simp), if_neg (Ne.symm hp1), hR.root]
  · intro i j hi1 hin hj1 hjn heq
    rw [hlen] at hin hjn
    rcases hnode i hi1 hin with ⟨hi, hie⟩ | ⟨hi, hie⟩ <;> rcases hnode j hj1 hjn with ⟨hj, hje⟩ | ⟨hj, hje⟩ <;>
      rw [hie, hje] at heq
    · omega
    · exact absurd heq.symm (hne j hj1 hjn)
    · exact absurd heq (hne i hi1 hin)
    · exact hR.inj i j hi1 hin hj1 hjn heq
  · intro k hk1 hkn
    rw [hlen] at hkn ⊢
    rw [hlinks, pos_update h1 hp, pos_update h1 hp, pos_update h1 hp]
    rcases hnode k hk1 hkn with ⟨rfl, hke⟩ | ⟨hkp, hke⟩
    · rw [hke]
      simp only [hnone, or_self, if_false, if_true]
      refine ⟨?_, ?_, ?_⟩ <;> rw [if_neg (by omega)]
    · rw [hke]
      simp only [hR.pos_eq hk1 hkn, hR.pos_eq h1 hp, hne k hk1 hkn, if_false, hR.parent k hk1 hkn, hR.left k hk1 hkn,
        hR.right k hk1 hkn, ne_eq]
      refine ⟨?_, ?_, ?_⟩ <;> split_ifs <;> first | rfl | omega
  · rw [hr]
    have hmem : ∀ k x, pos h.len node k = some x → x ∈ Insert.insert last (nodes h.len node) :=
      fun k x hx => Or.inr (mem_nodes_of_pos hx)
    refine (((Moved.refl.replaceChild fun x hx => ?_).place (Set.mem_insert ..) _ _ _).setParent (fun x hx => ?_) _).setParent
      (fun x hx => ?_) _
    · exact hmem _ x (hR.parent p h1 hp ▸ hx)
    · exact hmem _ x (hR.left p h1 hp ▸ hx)
    · exact hmem _ x (hR.right p h1 hp ▸ hx)

omit [DecidableEq T] in
theorem nodes_cut (hR : Rep h m node) (hn : 1 ≤ h.len) : nodes (h.len - 1) node = nodes h.len node \ {node h.len} := by
  ext x
  constructor
  · rintro ⟨k, h1, hk, rfl⟩
    refine ⟨mem_nodes h1 (by omega), fun he => ?_⟩
    have := hR.inj k h.len h1 (by omega) hn le_rfl he
    omega
  · rintro ⟨⟨k, h1, hk, rfl⟩, hne⟩
    refine mem_nodes h1 ?_
    have : k ≠ h.len := fun he => hne (by rw [he]; rfl)
    omega

omit [DecidableEq T] in
theorem nodes_replace (hR : Rep h m node) (h1 : 1 ≤ p) (hp : p < h.len) :
    nodes (h.len - 1) (update node p (node h.len)) = nodes h.len node \ {node p} := by
  ext x
  constructor
  · rintro ⟨k, hk1, hk, rfl⟩
    by_cases hkp : k = p
    · rw [hkp, update_self]
      refine ⟨mem_nodes (by omega) le_rfl, fun he => ?_⟩
      have := hR.inj h.len p (by omega) le_rfl h1 (by omega) he
      omega
    · rw [update_of_ne hkp]
      exact ⟨mem_nodes hk1 (by omega), fun he => hkp (hR.inj k p hk1 (by omega) h1 (by omega) he)⟩
  · rintro ⟨⟨k, hk1, hk, rfl⟩, hne⟩
    have hkp : k ≠ p := fun he => hne (by rw [he]; rfl)
    by_cases hkn : k = h.len
    · exact ⟨p, h1, by omega, by rw [hkn, update_self]⟩
    · exact ⟨k, hk1, by omega, update_of_ne hkp ..⟩

/-- The last node, in the place of another one, finds its own. -/
theorem settleIn_spec {S : Set T} (hR : Rep h m node) (h1 : 1 ≤ p) (hp : p ≤ h.len) (hS : S = nodes h.len node)
    (hup : 2 ≤ p → (m (node p)).deadline < (m (node (p / 2))).deadline →
      OrderedUp (fun x => (m x).deadline) h.len node p)
    (hdown : (2 ≤ p → (m (node (p / 2))).deadline ≤ (m (node p)).deadline) →
      OrderedDown (fun x => (m x).deadline) h.len node p) :
    ∃ h' m', h.settleIn m (node p) = some (h', m') ∧ Holds h' m' S ∧ Moved S m m' := by
  subst hS
  unfold settleIn
  rw [hR.parent p h1 hp]
  by_cases hlt : 2 ≤ p ∧ (m (node p)).deadline < (m (node (p / 2))).deadline
  · obtain ⟨h2, hlt⟩ := hlt
    rw [pos_of_le (by omega) (by omega), if_pos (by simp [earlier, hlt])]
    obtain ⟨h₁, m₁, he, hlen, hR₁, hM₁⟩ := swapWithParent_spec hR h2 hp
    have hO₁ := (hup h2 hlt).step h2 hp hlt
    rw [← hM₁.key, ← hlen] at hO₁
    obtain ⟨h', m', he', -, hH, hM⟩ := siftUp_spec h.len hR₁ (by omega) (by omega) (by omega) hO₁
    rw [hlen, nodes_swap h1 hp (by omega) (by omega)] at hH hM
    refine ⟨h', m', ?_, hH, hM₁.trans hM⟩
    rw [he]
    simpa using he'
  · rw [if_neg]
    · obtain ⟨h', m', he, -, hH, hM⟩ := siftDown_spec h.len hR h1 hp (by omega) (hdown (by omega))
      exact ⟨h', m', he, hH, hM⟩
    · by_cases h2 : 2 ≤ p
      · rw [pos_of_le (by omega) (by omega)]
        simp only [Option.any_some, earlier, decide_eq_true_eq]
        exact fun h => hlt ⟨h2, h⟩
      · rw [show p = 1 by omega]
        simp

theorem remove_spec {S : Set T} (hH : Holds h m S) (ht : t ∈ S) (hl : (m t).linked = true) :
    ∃ h' m', h.remove m t = some (h', m') ∧ Holds h' m' (S \ {t}) ∧
      Moved S (update m t { m t with linked := false }) m' := by
  obtain ⟨node, hR, hO, rfl⟩ := hH
  obtain ⟨p, h1, hp, rfl⟩ := ht
  have hn : 1 ≤ h.len := by omega
  obtain ⟨r, hr⟩ : ∃ r, r = h.detach m (node h.len) := ⟨_, rfl⟩
  obtain ⟨hlen₁, hR₁, hM₁⟩ := detach_spec hR hn
  rw [← hr] at hlen₁ hR₁ hM₁
  -- what comes before the marks of the timer go
  have hbody : ∃ h₁ m₁, (if node h.len = node p then some r
      else settleIn (r.1.takePlace r.2 (node p) (node h.len)).1 (r.1.takePlace r.2 (node p) (node h.len)).2
        (node h.len)) = some (h₁, m₁) ∧
      Holds h₁ m₁ (nodes h.len node \ {node p}) ∧ Moved (nodes h.len node) m m₁ := by
    by_cases hlast : p = h.len
    · rw [if_pos (by rw [hlast]), hlast]
      refine ⟨r.1, r.2, rfl, ⟨node, hR₁, ?_, by rw [hlen₁, nodes_cut hR hn]⟩, hM₁⟩
      exact ordered_congr (fun k h2 hk => hO k h2 (by omega)) fun x _ => hM₁.deadline x
    · rw [if_neg (fun he => hlast (hR.inj _ _ hn le_rfl h1 hp he).symm)]
      have hout : node h.len ∉ nodes r.1.len node := by
        rw [hlen₁, nodes_cut hR hn]
        exact fun hm => hm.2 rfl
      obtain ⟨r', hr'⟩ : ∃ r', r' = r.1.takePlace r.2 (node p) (node h.len) := ⟨_, rfl⟩
      obtain ⟨hlen₂, hR₂, hM₂⟩ := takePlace_spec hR₁ h1 (by omega) hout
      rw [← hr'] at hlen₂ hR₂ hM₂ ⊢
      have hsub : Insert.insert (node h.len) (nodes r.1.len node) ⊆ nodes h.len node := by
        rw [hlen₁, nodes_cut hR hn]
        rintro x (rfl | hx)
        · exact mem_nodes hn le_rfl
        · exact hx.1
      have hM := hM₁.trans (hM₂.mono hsub)
      have hq : ∀ k, k ≠ p → update node p (node h.len) k = node k := fun k hk => update_of_ne hk ..
      have hS : nodes h.len node \ {node p} = nodes r'.1.len (update node p (node h.len)) := by
        rw [hlen₂, hlen₁, nodes_replace hR h1 (by omega)]
      obtain ⟨h₁, m₁, he, hH, hM'⟩ := settleIn_spec hR₂ h1 (by omega) hS
        (fun h2 hlt => by
          rw [hM.key, hlen₂, hlen₁]
          rw [hM.deadline, hM.deadline, update_self, hq _ (by omega)] at hlt
          exact hO.replace_up h2 (by omega) hlt)
        (fun hle => by
          rw [hM.key, hlen₂, hlen₁]
          refine hO.replace_down h1 (by omega) fun h2 => ?_
          have := hle h2
          rwa [hM.deadline, hM.deadline, update_self, hq _ (by omega)] at this)
      rw [update_self] at he
      exact ⟨h₁, m₁, he, hH, hM.trans (hM'.mono fun x hx => hx.1)⟩
  obtain ⟨h₁, m₁, he, hH, hM⟩ := hbody
  refine ⟨h₁, update m₁ (node p) { m₁ (node p) with linked := false, parent := none, left := none, right := none },
    ?_, hH.congr fun x hx => update_of_ne (fun he => hx.2 he) .., ?_⟩
  · rw [remove, if_pos hl, timerAt_eq hR hn le_rfl]
    simp [← hr, he]
  · refine ⟨fun x => ?_, fun x => ?_, fun x hx => ?_⟩
    · by_cases hx : x = node p
      · subst hx; simp [hM.deadline]
      · simp [hx, hM.deadline]
    · by_cases hx : x = node p
      · subst hx; simp
      · simp [hx, hM.linked]
    · have hne : x ≠ node p := fun he => hx (he ▸ mem_nodes h1 hp)
      rw [update_of_ne hne, update_of_ne hne]
      exact hM.other x hx

end Remove

/-! ## The top -/

theorem holds_new [Nonempty T] (m : Links T) : Holds new m (∅ : Set T) := by
  obtain ⟨t⟩ := ‹Nonempty T›
  refine ⟨fun _ => t, rep_empty rfl rfl, fun k h1 h2 => ?_, (Set.eq_empty_iff_forall_notMem.2 ?_).symm⟩
  · exact absurd (le_trans h1 h2) (by simp [new])
  · rintro x ⟨k, h1, h2, -⟩
    exact absurd h1 (Nat.not_le.2 (Nat.lt_succ_of_le h2))

theorem Holds.len_eq_zero {S : Set T} (hH : Holds h m S) : h.len = 0 ↔ S = ∅ := by
  obtain ⟨node, -, -, rfl⟩ := hH
  constructor
  · intro hz
    refine Set.eq_empty_iff_forall_notMem.2 fun x => ?_
    rintro ⟨k, h1, hk, -⟩
    omega
  · intro he
    by_contra hz
    have : node 1 ∈ nodes h.len node := mem_nodes (le_refl 1) (by omega)
    rw [he] at this
    exact this

/-- The root, as `pop_expired` takes it: a timer with the least deadline. -/
theorem Holds.root_spec {S : Set T} (hH : Holds h m S) :
    (h.root = none ∧ S = ∅) ∨ ∃ r, h.root = some r ∧ r ∈ S ∧ ∀ x ∈ S, (m r).deadline ≤ (m x).deadline := by
  have hz := hH.len_eq_zero
  obtain ⟨node, hR, hO, rfl⟩ := hH
  by_cases hn : h.len = 0
  · left
    exact ⟨by rw [hR.root, pos_of_lt (by omega)], hz.1 hn⟩
  · right
    refine ⟨node 1, by rw [hR.root, pos_of_le (le_refl 1) (by omega)], mem_nodes (le_refl 1) (by omega), ?_⟩
    rintro x ⟨k, h1, hk, rfl⟩
    exact hO.root_le k h1 hk

theorem Holds.first_spec {S : Set T} (hH : Holds h m S) :
    (h.first m = none ∧ S = ∅) ∨
      ∃ d, h.first m = some d ∧ (∃ x ∈ S, (m x).deadline = d) ∧ ∀ x ∈ S, d ≤ (m x).deadline := by
  rcases hH.root_spec with ⟨hr, hS⟩ | ⟨r, hr, hmem, hle⟩
  · left
    exact ⟨by rw [first, hr]; rfl, hS⟩
  · right
    exact ⟨(m r).deadline, by rw [first, hr]; rfl, ⟨r, hmem, rfl⟩, hle⟩

end Timer
