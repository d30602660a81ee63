import Stafeto.Descriptor
import Stafeto.Lib.OnDemand
import Stafeto.Lib.Radix

/-!
# Translation tables (kcore/src/paging.rs)

A tree of tables of four levels with 512 words each, made on demand. `map` fills a range of addresses with
blocks of 2 MiB, where both addresses and the rest of the range allow them, and with pages of 4 KiB;
`map_user` with pages alone. `unmap_page` and `protect_page` change one page. `translate` walks the tree as
the hardware does and reads the low 48 bits of an address.

The memory for tables is what the trait `TableMemory` promises: the words of memory, and the answers that
the allocator will give, in their order. An answer is a frame, which is zeroed when it is handed out, or
nothing when memory runs out. A frame is aligned, below `2 ^ 48` and given once (`Sound`). A call returns its
result together with the memory, since a failed call keeps what it wrote.

The tree in memory is compared with `Radix.TableTree`: the places of its tables and the leaves of the levels 2
and 3. What an address translates to depends on the leaves alone (`look`, `translate_eq`). A new table
leaves them as they are, and a leaf is written at one place. `mapUserCalls` and its parts list the answers of
`alloc_table` over a call, which are requests for empty places of the tree (`Grew`).
-/

namespace Paging

open Mask Radix OnDemand

def USER_END : Nat := 1 <<< 48

/-- `MapError` (paging.rs:214). -/
inductive MapError where
  | misaligned
  | writeAndExecute
  | alreadyMapped
  | noMemory
  | notMapped
  | notUser
  deriving DecidableEq, Repr

/-- `TableMemory` (paging.rs:205). -/
structure TableMemory where
  words : Nat → Nat
  answers : List (Option Nat)

namespace TableMemory

def read (m : TableMemory) (pa : Nat) : Nat := m.words pa

def write (m : TableMemory) (pa value : Nat) : TableMemory := { m with words := Function.update m.words pa value }

/-- `alloc_table`: the frame of the next answer, zeroed. -/
def allocTable (m : TableMemory) : Option Nat × TableMemory :=
  match m.answers with
  | [] => (none, m)
  | none :: rest => (none, { m with answers := rest })
  | some t :: rest =>
    (some t, ⟨fun pa => if t ≤ pa ∧ pa < t + PAGE_SIZE then 0 else m.words pa, rest⟩)

/-- What the trait asks of the frames (paging.rs:194). -/
structure Sound (m : TableMemory) : Prop where
  frame : ∀ c, some c ∈ m.answers → c % PAGE_SIZE = 0 ∧ c < 2 ^ 48
  once : (m.answers.filterMap id).Nodup

end TableMemory

/-- `index` (paging.rs:237). -/
def index (va level : Nat) : Nat := (va >>> (39 - 9 * level)) &&& 0x1FF

/-- `PageTable` (paging.rs:284). -/
structure PageTable where
  root : Nat
  deriving DecidableEq, Repr

/-- A leaf of `map_range` and how far its step goes. -/
structure Leaf where
  level : Nat
  desc : Nat
  step : Nat

/-- The leaf of one step (paging.rs:362): a block where both addresses and the rest of the range allow it, a
page elsewhere. -/
def stepLeaf (blocks : Bool) (v p rest : Nat) (attrs : Attrs) : Leaf :=
  if blocks && v % BLOCK_2M == 0 && p % BLOCK_2M == 0 && decide (BLOCK_2M ≤ rest) then
    ⟨2, blockDescriptor p attrs, BLOCK_2M⟩
  else ⟨3, pageDescriptor p attrs, PAGE_SIZE⟩

theorem stepLeaf_pos (blocks : Bool) (v p rest : Nat) (attrs : Attrs) : 0 < (stepLeaf blocks v p rest attrs).step := by
  unfold stepLeaf
  split
  · exact (by decide : 0 < BLOCK_2M)
  · exact (by decide : 0 < PAGE_SIZE)

namespace PageTable

/-- `PageTable::new` (paging.rs:289). -/
def new (m : TableMemory) : Except MapError PageTable × TableMemory :=
  match m.allocTable with
  | (none, m) => (.error .noMemory, m)
  | (some root, m) => (.ok ⟨root⟩, m)

/-- One turn of the loop of `entry` (paging.rs:383). -/
def descend (m : TableMemory) (va table l : Nat) : Except MapError Nat × TableMemory :=
  let slot := table + index va l * 8
  let d := m.read slot
  if isTableOrPage d then (.ok (d &&& OA_MASK), m)
  else if d &&& VALID = 0 then
    match m.allocTable with
    | (none, m) => (.error .noMemory, m)
    | (some t, m) => (.ok t, m.write slot (tableDescriptor t))
  else (.error .alreadyMapped, m)

/-- The loop of `entry`: `n` levels from `l` on. -/
def entryLoop (va : Nat) : Nat → Nat → Nat → TableMemory → Except MapError Nat × TableMemory
  | 0, _, table, m => (.ok table, m)
  | n + 1, l, table, m =>
    match descend m va table l with
    | (.ok t, m) => entryLoop va n (l + 1) t m
    | (.error e, m) => (.error e, m)

/-- `entry` (paging.rs:380). -/
def entry (t : PageTable) (m : TableMemory) (va level : Nat) : Except MapError Nat × TableMemory :=
  match entryLoop va level 0 t.root m with
  | (.ok table, m) => (.ok (table + index va level * 8), m)
  | (.error e, m) => (.error e, m)

/-- The rest of one step of `map_range` (paging.rs:371). -/
def mapLeaf (t : PageTable) (m : TableMemory) (v : Nat) (leaf : Leaf) : Except MapError Unit × TableMemory :=
  match t.entry m v leaf.level with
  | (.ok slot, m) => if m.read slot ≠ 0 then (.error .alreadyMapped, m) else (.ok (), m.write slot leaf.desc)
  | (.error e, m) => (.error e, m)

/-- The loop of `map_range` (paging.rs:358). -/
def mapLoop (t : PageTable) (va pa size : Nat) (attrs : Attrs) (blocks : Bool) (off : Nat) (m : TableMemory) :
    Except MapError Unit × TableMemory :=
  if _ : off < size then
    let v := (va + off) % 2 ^ 64
    let p := pa + off
    let leaf := stepLeaf blocks v p (size - off) attrs
    match t.mapLeaf m v leaf with
    | (.ok (), m) => mapLoop t va pa size attrs blocks (off + leaf.step) m
    | (.error e, m) => (.error e, m)
  else (.ok (), m)
termination_by size - off
decreasing_by
  exact Nat.sub_lt_sub_left ‹_› (Nat.lt_add_of_pos_right (stepLeaf_pos ..))

/-- `map_range` (paging.rs:339). -/
def mapRange (t : PageTable) (m : TableMemory) (va pa size : Nat) (attrs : Attrs) (blocks : Bool) :
    Except MapError Unit × TableMemory :=
  if !attrs.isValid then (.error .writeAndExecute, m)
  else if va % PAGE_SIZE ≠ 0 ∨ pa % PAGE_SIZE ≠ 0 ∨ size % PAGE_SIZE ≠ 0 then (.error .misaligned, m)
  else t.mapLoop va pa size attrs blocks 0 m

/-- `map` (paging.rs:307). -/
def map (t : PageTable) (m : TableMemory) (va pa size : Nat) (attrs : Attrs) : Except MapError Unit × TableMemory :=
  t.mapRange m va pa size attrs true

/-- `map_user` (paging.rs:322). -/
def mapUser (t : PageTable) (m : TableMemory) (va pa size : Nat) (attrs : Attrs) :
    Except MapError Unit × TableMemory :=
  let inside := decide (va + size < 2 ^ 64) && decide (va + size ≤ USER_END)
  if !attrs.user || !inside then (.error .notUser, m) else t.mapRange m va pa size attrs false

/-- The walk of `unmap_page` and `protect_page` over the levels 0 to 2 (paging.rs:406, 446): the level-3 table. -/
def walk (m : TableMemory) (va : Nat) : Nat → Nat → Nat → Option Nat
  | 0, _, table => some table
  | n + 1, level, table =>
    let d := m.read (table + index va level * 8)
    if isTableOrPage d then walk m va n (level + 1) (d &&& OA_MASK) else none

/-- `unmap_page` (paging.rs:401). -/
def unmapPage (t : PageTable) (m : TableMemory) (va : Nat) : Except MapError Nat × TableMemory :=
  if va % PAGE_SIZE ≠ 0 then (.error .misaligned, m)
  else
    match walk m va 3 0 t.root with
    | none => (.error .notMapped, m)
    | some table =>
      let slot := table + index va 3 * 8
      let d := m.read slot
      if isTableOrPage d then (.ok (d &&& OA_MASK), m.write slot 0) else (.error .notMapped, m)

/-- `protect_page` (paging.rs:430). -/
def protectPage (t : PageTable) (m : TableMemory) (va : Nat) (attrs : Attrs) : Except MapError Nat × TableMemory :=
  if !attrs.isValid then (.error .writeAndExecute, m)
  else if !attrs.user && !attrs.isUserNone then (.error .notUser, m)
  else if va % PAGE_SIZE ≠ 0 then (.error .misaligned, m)
  else
    match walk m va 3 0 t.root with
    | none => (.error .notMapped, m)
    | some table =>
      let slot := table + index va 3 * 8
      let old := m.read slot
      if isTableOrPage old then (.ok old, m.write slot (changeAccess old attrs)) else (.error .notMapped, m)

/-- The loop of `translate`: `n` levels from `level` on (paging.rs:488). -/
def translateLoop (m : TableMemory) (va : Nat) : Nat → Nat → Nat → Option (Nat × Nat)
  | 0, _, _ => none
  | n + 1, level, table =>
    let d := m.read (table + index va level * 8)
    if d &&& VALID = 0 then none
    else if level < 3 ∧ d &&& TABLE_OR_PAGE ≠ 0 then translateLoop m va n (level + 1) (d &&& OA_MASK)
    else if level = 0 ∨ level = 3 ∧ ¬d &&& TABLE_OR_PAGE ≠ 0 then none
    else
      let span := 1 <<< (39 - 9 * level)
      some (without (d &&& OA_MASK) (span - 1) ||| (va &&& (span - 1)), d)

/-- `translate` (paging.rs:486). -/
def translate (t : PageTable) (m : TableMemory) (va : Nat) : Option (Nat × Nat) := translateLoop m va 4 0 t.root

end PageTable

open PageTable TableTree

/-! ## Calls and what they promise -/

/-- The calls that change a tree. -/
inductive Op where
  | map (va pa size : Nat) (attrs : Attrs)
  | mapUser (va pa size : Nat) (attrs : Attrs)
  | unmapPage (va : Nat)
  | protectPage (va : Nat) (attrs : Attrs)
  deriving DecidableEq, Repr

/-- A range as the callers give it: physical addresses below `2 ^ 48`, and virtual ones whose low 48 bits do
not wrap. -/
structure Fits (va pa size : Nat) : Prop where
  word : va < 2 ^ 64
  phys : pa + size ≤ 2 ^ 48
  low : va % 2 ^ 48 + size ≤ 2 ^ 48

def Op.Meets : Op → Prop
  | .map va pa size _ | .mapUser va pa size _ => Fits va pa size
  | .unmapPage _ | .protectPage _ _ => True

/-- The memory after a call. -/
def exec (t : PageTable) (m : TableMemory) : Op → TableMemory
  | .map va pa size attrs => (t.map m va pa size attrs).2
  | .mapUser va pa size attrs => (t.mapUser m va pa size attrs).2
  | .unmapPage va => (t.unmapPage m va).2
  | .protectPage va attrs => (t.protectPage m va attrs).2

def run (t : PageTable) (m : TableMemory) (ops : List Op) : TableMemory := ops.foldl (exec t) m

/-- The address is inside a range, as far as a walk reads the two. -/
def Inside (va size w : Nat) : Prop := va % 2 ^ 48 ≤ w % 2 ^ 48 ∧ w % 2 ^ 48 < va % 2 ^ 48 + size

/-- The address is on a page. -/
def OnPage (va w : Nat) : Prop := w % 2 ^ 48 / PAGE_SIZE = va % 2 ^ 48 / PAGE_SIZE

/-- What `map` and `map_user` do: all of the range and nothing else, or on an error nothing but addresses of
the range that nothing mapped. -/
structure Mapped (t : PageTable) (m : TableMemory) (va pa size : Nat) (attrs : Attrs)
    (r : Except MapError Unit × TableMemory) : Prop where
  range : r.1 = .ok () → ∀ x < size,
    ∃ d, t.translate r.2 ((va + x) % 2 ^ 64) = some (pa + x, d) ∧ attrBits d = attrs.bits
  others : r.1 = .ok () → ∀ w, ¬Inside va size w → t.translate r.2 w = t.translate m w
  failed : r.1 ≠ .ok () → ∀ w, t.translate r.2 w ≠ t.translate m w → Inside va size w ∧ t.translate m w = none

/-- What `unmap_page` does. -/
structure Unmapped (t : PageTable) (m : TableMemory) (va : Nat) (r : Except MapError Nat × TableMemory) : Prop where
  page : ∀ pa, r.1 = .ok pa → ∀ w, OnPage va w →
    (∃ d, t.translate m w = some (pa + w % PAGE_SIZE, d)) ∧ t.translate r.2 w = none
  others : ∀ w, ¬OnPage va w → t.translate r.2 w = t.translate m w
  failed : ∀ e, r.1 = .error e → ∀ w, t.translate r.2 w = t.translate m w

/-- What `protect_page` does: the address that a page leads to stays, and of its descriptor all but AP, PXN
and UXN, which become those of the attributes. -/
structure Protected (t : PageTable) (m : TableMemory) (va : Nat) (attrs : Attrs)
    (r : Except MapError Nat × TableMemory) : Prop where
  page : ∀ old, r.1 = .ok old → ∀ w, OnPage va w → ∃ pa d, t.translate m w = some (pa, old) ∧
    t.translate r.2 w = some (pa, d) ∧ without d PERMISSIONS = without old PERMISSIONS ∧
      d &&& PERMISSIONS = attrs.bits &&& PERMISSIONS
  others : ∀ w, ¬OnPage va w → t.translate r.2 w = t.translate m w
  failed : ∀ e, r.1 = .error e → ∀ w, t.translate r.2 w = t.translate m w

def Op.Does (t : PageTable) (m : TableMemory) : Op → Prop
  | .map va pa size attrs => Mapped t m va pa size attrs (t.map m va pa size attrs)
  | .mapUser va pa size attrs => Mapped t m va pa size attrs (t.mapUser m va pa size attrs)
  | .unmapPage va => Unmapped t m va (t.unmapPage m va)
  | .protectPage va attrs => Protected t m va attrs (t.protectPage m va attrs)

/-! ## Places -/

/-- The tables of this machine. -/
def layout : Layout Nat where
  fan := 512
  depth := 4
  zero := 0
  child := tableDescriptor
  slot := fun t i => t + i * 8
  Table := fun t => t % PAGE_SIZE = 0 ∧ t < 2 ^ 48
  fan_pos := by decide
  slot_inj := by
    intro t u i j ht hu hi hj h
    unfold PAGE_SIZE at ht hu
    omega

/-- The place of an address in a level: the digits of its indices down to it. -/
def place (w l : Nat) : Nat := w % 2 ^ 48 / 2 ^ (39 - 9 * l)

theorem place_zero (w : Nat) : place w 0 / 512 = 0 := by
  show w % 2 ^ 48 / 549755813888 / 512 = 0
  omega

variable {w l : Nat}

theorem place_succ (h : l < 3) : place w (l + 1) / 512 = place w l := by
  obtain rfl | rfl | rfl : l = 0 ∨ l = 1 ∨ l = 2 := by omega
  · show w % 2 ^ 48 / 1073741824 / 512 = w % 2 ^ 48 / 549755813888
    omega
  · show w % 2 ^ 48 / 2097152 / 512 = w % 2 ^ 48 / 1073741824
    omega
  · show w % 2 ^ 48 / 4096 / 512 = w % 2 ^ 48 / 2097152
    omega

theorem index_eq (h : l ≤ 3) : index w l = place w l % 512 := by
  have hmask : index w l = w / 2 ^ (39 - 9 * l) % 512 := by
    rw [index, Nat.shiftRight_eq_div_pow]
    exact Nat.and_two_pow_sub_one_eq_mod _ 9
  rw [hmask]
  obtain rfl | rfl | rfl | rfl : l = 0 ∨ l = 1 ∨ l = 2 ∨ l = 3 := by omega
  · show w / 549755813888 % 512 = w % 2 ^ 48 / 549755813888 % 512
    omega
  · show w / 1073741824 % 512 = w % 2 ^ 48 / 1073741824 % 512
    omega
  · show w / 2097152 % 512 = w % 2 ^ 48 / 2097152 % 512
    omega
  · show w / 4096 % 512 = w % 2 ^ 48 / 4096 % 512
    omega

/-- What an address leads to, from the leaves. -/
def look (T : TableTree Nat) (w : Nat) : Option (Nat × Nat) :=
  if T.leaf 3 (place w 3) ≠ 0 then some ((T.leaf 3 (place w 3) &&& OA_MASK) + w % PAGE_SIZE, T.leaf 3 (place w 3))
  else if T.leaf 2 (place w 2) ≠ 0 then
    some ((T.leaf 2 (place w 2) &&& OA_MASK) + w % BLOCK_2M, T.leaf 2 (place w 2))
  else none

/-- The tree of a page table is in memory; its leaves are blocks and pages that keep W^X; and the frames that
the allocator will hand out are not in it. -/
structure Inv (t : PageTable) (m : TableMemory) (T : TableTree Nat) : Prop where
  holds : Holds layout m.words t.root T
  low : ∀ l q, l < 2 → T.leaf l q = 0
  block : ∀ q, T.leaf 2 q ≠ 0 → IsBlock (T.leaf 2 q)
  page : ∀ q, T.leaf 3 q ≠ 0 → IsPage (T.leaf 3 q)
  sound : m.Sound
  fresh : ∀ c, some c ∈ m.answers → ∀ l p, T.table l p ≠ some c

variable {t : PageTable} {m m' : TableMemory} {T T' : TableTree Nat} {table n c d level b p v q : Nat} {leaf : Leaf}

theorem Inv.read {va : Nat} (h : Inv t m T) (hl : l ≤ 3) (ht : T.table l (place va l / 512) = some table) :
    m.read (table + index va l * 8) = T.entry layout l (place va l) := by
  rw [index_eq hl]
  exact h.holds.read ht

theorem Inv.root (h : Inv t m T) (va : Nat) : T.table 0 (place va 0 / 512) = some t.root := by
  rw [place_zero]
  exact h.holds.root

/-! ## The walk -/

theorem Inv.translate_table {va : Nat} (h : Inv t m T) (hl : l < 3)
    (ht : T.table l (place va l / 512) = some table) (hc : T.table (l + 1) (place va l) = some c) :
    translateLoop m va (n + 1) l table = translateLoop m va n (l + 1) c := by
  have hd : m.read (table + index va l * 8) = tableDescriptor c := (h.read (by omega) ht).trans (entry_table hc)
  obtain ⟨hv, hp⟩ := isTableOrPage_iff.1 (isTable_tableDescriptor c)
  obtain ⟨h1, h2⟩ := (h.holds.table hc).2
  rw [translateLoop, hd]
  rw [if_neg hv, if_pos ⟨hl, hp⟩, oa_tableDescriptor h1 h2]

theorem Inv.translate_zero {va : Nat} (h : Inv t m T) (hl : l ≤ 3)
    (ht : T.table l (place va l / 512) = some table) (hc : T.table (l + 1) (place va l) = none)
    (h0 : T.leaf l (place va l) = 0) : translateLoop m va (n + 1) l table = none := by
  have hd : m.read (table + index va l * 8) = 0 := by rw [h.read hl ht, entry_leaf hc, h0]
  rw [translateLoop, hd]
  rfl

/-- A leaf found: the address in it, and below its span that of the address. -/
theorem Inv.translate_leaf {va : Nat} (h : Inv t m T) (hl : l ≤ 3)
    (ht : T.table l (place va l / 512) = some table) (hc : T.table (l + 1) (place va l) = none)
    (hv : T.leaf l (place va l) &&& VALID ≠ 0) (hb : l < 3 ↔ T.leaf l (place va l) &&& TABLE_OR_PAGE = 0) (h0 : l ≠ 0)
    (hspan : (T.leaf l (place va l) &&& OA_MASK) % 2 ^ (39 - 9 * l) = 0) :
    translateLoop m va (n + 1) l table =
      some ((T.leaf l (place va l) &&& OA_MASK) + va % 2 ^ (39 - 9 * l), T.leaf l (place va l)) := by
  have hd : m.read (table + index va l * 8) = T.leaf l (place va l) := by rw [h.read hl ht, entry_leaf hc]
  rw [translateLoop, hd]
  simp only
  rw [if_neg hv, if_neg (by rintro ⟨h3, hn⟩; exact hn (hb.1 h3)), if_neg (by
    rintro (h1 | ⟨h3, hn⟩)
    · exact h0 h1
    · exact absurd (hb.2 (not_not.1 hn)) (by omega)), Nat.one_shiftLeft,
    without_low (lt_trans (oa_lt _) (by decide)), Nat.and_two_pow_sub_one_eq_mod,
    ← Nat.two_pow_add_eq_or_of_lt (Nat.mod_lt _ (Nat.two_pow_pos _))]
  have := Nat.div_add_mod (T.leaf l (place va l) &&& OA_MASK) (2 ^ (39 - 9 * l))
  rw [hspan, add_zero] at this
  rw [this]

/-- Nothing is below a place without a table. -/
theorem Inv.below (h : Inv t m T) (hl : l < 3) (hn : T.table (l + 1) (place w l) = none) :
    T.leaf (l + 1) (place w (l + 1)) = 0 ∧ T.table (l + 2) (place w (l + 1)) = none := by
  have hplace : T.table (l + 1) (place w (l + 1) / 512) = none := by rwa [place_succ hl]
  refine ⟨h.holds.bare hplace, ?_⟩
  cases hc : T.table (l + 2) (place w (l + 1)) with
  | none => rfl
  | some c =>
    obtain ⟨u, hu⟩ := h.holds.up hc
    exact nomatch hplace.symm.trans hu

theorem look_none (h3 : T.leaf 3 (place w 3) = 0) (h2 : T.leaf 2 (place w 2) = 0) : look T w = none := by
  rw [look, if_neg (not_not.2 h3), if_neg (not_not.2 h2)]

theorem look_page (h3 : T.leaf 3 (place w 3) ≠ 0) :
    look T w = some ((T.leaf 3 (place w 3) &&& OA_MASK) + w % PAGE_SIZE, T.leaf 3 (place w 3)) := by
  rw [look, if_pos h3]

theorem look_block (h3 : T.leaf 3 (place w 3) = 0) (h2 : T.leaf 2 (place w 2) ≠ 0) :
    look T w = some ((T.leaf 2 (place w 2) &&& OA_MASK) + w % BLOCK_2M, T.leaf 2 (place w 2)) := by
  rw [look, if_neg (not_not.2 h3), if_pos h2]

/-- **`translate` reads the leaves.** -/
theorem translate_eq (h : Inv t m T) (w : Nat) : t.translate m w = look T w := by
  have htop := h.root w
  unfold PageTable.translate
  cases h1 : T.table 1 (place w 0) with
  | none =>
    obtain ⟨-, hn1⟩ := h.below (by decide) h1
    obtain ⟨hl2, hn2⟩ := h.below (by decide) hn1
    rw [h.translate_zero (by decide) htop h1 (h.low 0 _ (by decide)), look_none (h.below (by decide) hn2).1 hl2]
  | some t1 =>
    rw [h.translate_table (by decide) htop h1]
    rw [← place_succ (by decide)] at h1
    cases h2 : T.table 2 (place w 1) with
    | none =>
      obtain ⟨hl2, hn2⟩ := h.below (by decide) h2
      rw [h.translate_zero (by decide) h1 h2 (h.low 1 _ (by decide)), look_none (h.below (by decide) hn2).1 hl2]
    | some t2 =>
      rw [h.translate_table (by decide) h1 h2]
      rw [← place_succ (by decide)] at h2
      cases h3 : T.table 3 (place w 2) with
      | none =>
        have hl3 := (h.below (by decide) h3).1
        by_cases hl2 : T.leaf 2 (place w 2) = 0
        · rw [h.translate_zero (by decide) h2 h3 hl2, look_none hl3 hl2]
        · have hb := h.block _ hl2
          rw [h.translate_leaf (by decide) h2 h3 hb.valid (by simp [hb.block]) (by decide) hb.aligned,
            look_block hl3 hl2]
          rfl
      | some t3 =>
        have hl2 := h.holds.inner h3
        rw [h.translate_table (by decide) h2 h3]
        rw [← place_succ (by decide)] at h3
        have h4 : T.table 4 (place w 3) = none := by
          cases hc : T.table 4 (place w 3) with
          | none => rfl
          | some c => exact absurd (h.holds.table hc).1 (by decide)
        by_cases hl3 : T.leaf 3 (place w 3) = 0
        · rw [h.translate_zero (by decide) h3 h4 hl3, look_none hl3 hl2]
        · obtain ⟨hv, hp⟩ := isTableOrPage_iff.1 (h.page _ hl3).page
          have hspan : (T.leaf 3 (place w 3) &&& OA_MASK) % 4096 = 0 := by
            have hmask : OA_MASK &&& (2 ^ 12 - 1) = 0 := by decide
            rw [← Nat.and_two_pow_sub_one_eq_mod _ 12, Nat.and_assoc, hmask, Nat.and_zero]
          rw [h.translate_leaf (by decide) h3 h4 hv (by simp [hp]) (by decide) hspan, look_page hl3]
          rfl

/-- No leaf that an address leads to is writable and executable. -/
theorem safe_of_look (h : Inv t m T) {pa : Nat} (hw : look T w = some (pa, d)) : Safe d := by
  unfold look at hw
  split_ifs at hw with h3 h2
  · cases hw
    exact (h.page _ h3).safe
  · cases hw
    exact (h.block _ h2).safe

/-! ## New tables -/

/-- An answer of the allocator is used up, and the frame of it is zeroed. -/
theorem allocTable_cases (m : TableMemory) :
    (∃ m', m.allocTable = (none, m') ∧ m'.words = m.words ∧ m'.answers.Sublist m.answers) ∨
      ∃ c m', m.allocTable = (some c, m') ∧ m.answers = some c :: m'.answers ∧
        ∀ pa, m'.words pa = if c ≤ pa ∧ pa < c + PAGE_SIZE then 0 else m.words pa := by
  unfold TableMemory.allocTable
  split
  · exact .inl ⟨m, rfl, rfl, List.Sublist.refl _⟩
  · next rest he =>
    refine .inl ⟨_, rfl, rfl, ?_⟩
    rw [he]
    exact List.sublist_cons_self _ _
  · next c rest he => exact .inr ⟨c, _, rfl, he, fun _ => rfl⟩

theorem TableMemory.Sound.sublist (h : m.Sound) (hs : m'.answers.Sublist m.answers) : m'.Sound :=
  ⟨fun c hc => h.frame c (hs.subset hc), h.once.sublist (hs.filterMap id)⟩

theorem TableMemory.Sound.not_mem {rest : List (Option Nat)} (h : m.Sound)
    (ha : m.answers = some c :: rest) : some c ∉ rest := by
  have honce : (c :: rest.filterMap id).Nodup := by
    have := h.once
    rwa [ha] at this
  exact fun hc => (List.nodup_cons.1 honce).1 (List.mem_filterMap.2 ⟨some c, hc, rfl⟩)

theorem Inv.sublist (h : Inv t m T) (hw : m'.words = m.words) (hs : m'.answers.Sublist m.answers) :
    Inv t m' T :=
  { h with
    holds := hw ▸ h.holds
    sound := h.sound.sublist hs
    fresh := fun c hc => h.fresh c (hs.subset hc) }

theorem Inv.link {va : Nat} (h : Inv t m T) (hl : l < 3)
    (ht : T.table l (place va l / 512) = some table) (hn : T.table (l + 1) (place va l) = none)
    (h0 : T.leaf l (place va l) = 0) (ha : m.answers = some c :: m'.answers)
    (hw : ∀ pa, m'.words pa = if c ≤ pa ∧ pa < c + PAGE_SIZE then 0 else m.words pa) :
    Inv t (m'.write (table + index va l * 8) (tableDescriptor c)) (T.link l (place va l) c) := by
  have hmem : some c ∈ m.answers := by rw [ha]; exact List.mem_cons_self
  have hsub : m'.answers.Sublist m.answers := by rw [ha]; exact List.sublist_cons_self _ _
  have hframe := h.sound.frame c hmem
  have hfresh := h.fresh c hmem
  have hkeep : Holds layout m'.words t.root T := by
    refine h.holds.congr fun {l p u i} hu hi => ?_
    have hne : u ≠ c := fun he => hfresh l p (he ▸ hu)
    obtain ⟨hu1, -⟩ := (h.holds.table hu).2
    rw [hw, if_neg]
    simp only [layout] at hi ⊢
    unfold PAGE_SIZE at *
    omega
  have hzero : ∀ i < layout.fan, m'.words (layout.slot c i) = layout.zero := by
    intro i hi
    rw [hw, if_pos]
    · rfl
    · simp only [layout] at hi ⊢
      unfold PAGE_SIZE
      omega
  have hlink := hkeep.link ht (by simp only [layout]; omega) hn h0 hframe hfresh hzero
  refine ⟨?_, h.low, h.block, h.page, h.sound.sublist hsub, fun c' hc' k r hk => ?_⟩
  · rw [index_eq (by omega)]
    exact hlink
  · by_cases hkr : k = l + 1 ∧ r = place va l
    · obtain ⟨rfl, rfl⟩ := hkr
      obtain rfl := Option.some.inj (table_link_self.symm.trans hk)
      exact h.sound.not_mem ha hc'
    · rw [table_link_of_ne hkr] at hk
      exact h.fresh c' (hsub.subset hc') k r hk

/-- The word at a place without a table is zero or a leaf; it is not taken for a table. -/
theorem Inv.entry_at (h : Inv t m T) (hl : l < 3) (q : Nat) :
    (∃ c, T.table (l + 1) q = some c ∧ T.entry layout l q = tableDescriptor c) ∨
      T.table (l + 1) q = none ∧ isTableOrPage (T.entry layout l q) = false ∧
        (T.entry layout l q &&& VALID = 0 → T.leaf l q = 0) := by
  cases hc : T.table (l + 1) q with
  | some c => exact .inl ⟨c, rfl, entry_table hc⟩
  | none =>
    rw [entry_leaf hc]
    refine .inr ⟨rfl, ?_⟩
    by_cases h0 : T.leaf l q = 0
    · rw [h0]
      exact ⟨rfl, fun _ => rfl⟩
    · have h2 : l = 2 := by
        by_contra hne
        exact h0 (h.low l _ (by omega))
      subst h2
      have hb := h.block _ h0
      refine ⟨?_, fun hv => absurd hv hb.valid⟩
      rw [Bool.eq_false_iff, Ne, isTableOrPage_iff]
      exact fun ht => ht.2 hb.block

/-- What one turn of `entry` comes to: the table is there, `alloc_table` refuses one or gives one, or a block is
in its place. `d` is the word it reads. -/
inductive Descended (t : PageTable) (m : TableMemory) (T : TableTree Nat) (va table l d : Nat) :
    Except MapError Nat × TableMemory → Prop where
  | found {c : Nat} : isTableOrPage d = true → T.table (l + 1) (place va l) = some c →
      Descended t m T va table l d (.ok c, m)
  | refused {m' : TableMemory} : ¬isTableOrPage d = true → d &&& VALID = 0 → T.table (l + 1) (place va l) = none →
      m.allocTable = (none, m') → Inv t m' T → Descended t m T va table l d (.error .noMemory, m')
  | linked {c : Nat} {m' : TableMemory} : ¬isTableOrPage d = true → d &&& VALID = 0 →
      T.table (l + 1) (place va l) = none → m.allocTable = (some c, m') →
      Inv t (m'.write (table + index va l * 8) (tableDescriptor c)) (T.link l (place va l) c) →
      Descended t m T va table l d (.ok c, m'.write (table + index va l * 8) (tableDescriptor c))
  | blocked : ¬isTableOrPage d = true → ¬d &&& VALID = 0 → Descended t m T va table l d (.error .alreadyMapped, m)

theorem descend_cases {va : Nat} (h : Inv t m T) (hl : l < 3) (ht : T.table l (place va l / 512) = some table) :
    Descended t m T va table l (m.read (table + index va l * 8)) (descend m va table l) := by
  unfold descend
  simp only [h.read (by omega) ht]
  rcases h.entry_at hl (place va l) with ⟨c, hc, he⟩ | ⟨hn, hno, hv⟩
  · obtain ⟨h1, h2⟩ := (h.holds.table hc).2
    have hT : isTableOrPage (T.entry layout l (place va l)) = true := by
      rw [he]
      exact isTable_tableDescriptor c
    rw [if_pos hT, he, oa_tableDescriptor h1 h2]
    exact .found (isTable_tableDescriptor c) hc
  · have hno : ¬isTableOrPage (T.entry layout l (place va l)) = true := by simp [hno]
    rw [if_neg hno]
    by_cases h0 : T.entry layout l (place va l) &&& VALID = 0
    · rw [if_pos h0]
      rcases allocTable_cases m with ⟨m', ha, hw, hs⟩ | ⟨c, m', ha, hans, hw⟩
      · rw [ha]
        exact .refused hno h0 hn ha (h.sublist hw hs)
      · rw [ha]
        exact .linked hno h0 hn ha (h.link hl ht hn (hv h0) hans hw)
    · rw [if_neg h0]
      exact .blocked hno h0

/-! ## The calls of `alloc_table` -/

section
variable {va : Nat} {P Q : Nat × Nat → Prop} {m'' : TableMemory} {T'' : TableTree Nat} {calls calls' : List (Option Nat)}

namespace PageTable

/-- One turn of the loop of `entry` (paging.rs:383). -/
def descendCalls (m : TableMemory) (va table l : Nat) : List (Option Nat) :=
  let d := m.read (table + index va l * 8)
  if isTableOrPage d then []
  else if d &&& VALID = 0 then [m.allocTable.1]
  else []

/-- The loop of `entry`. -/
def entryLoopCalls (va : Nat) : Nat → Nat → Nat → TableMemory → List (Option Nat)
  | 0, _, _, _ => []
  | n + 1, l, table, m =>
    descendCalls m va table l ++
      match descend m va table l with
      | (.ok t, m) => entryLoopCalls va n (l + 1) t m
      | (.error _, _) => []

/-- The loop of `map_range` (paging.rs:358). -/
def mapLoopCalls (t : PageTable) (va pa size : Nat) (attrs : Attrs) (blocks : Bool) (off : Nat) (m : TableMemory) :
    List (Option Nat) :=
  if _ : off < size then
    let v := (va + off) % 2 ^ 64
    let leaf := stepLeaf blocks v (pa + off) (size - off) attrs
    entryLoopCalls v leaf.level 0 t.root m ++
      match t.mapLeaf m v leaf with
      | (.ok (), m) => mapLoopCalls t va pa size attrs blocks (off + leaf.step) m
      | (.error _, _) => []
  else []
termination_by size - off
decreasing_by
  exact Nat.sub_lt_sub_left ‹_› (Nat.lt_add_of_pos_right (stepLeaf_pos ..))

/-- `map_range` (paging.rs:339). -/
def mapRangeCalls (t : PageTable) (m : TableMemory) (va pa size : Nat) (attrs : Attrs) (blocks : Bool) :
    List (Option Nat) :=
  if !attrs.isValid then []
  else if va % PAGE_SIZE ≠ 0 ∨ pa % PAGE_SIZE ≠ 0 ∨ size % PAGE_SIZE ≠ 0 then []
  else t.mapLoopCalls va pa size attrs blocks 0 m

/-- `map_user` (paging.rs:322). -/
def mapUserCalls (t : PageTable) (m : TableMemory) (va pa size : Nat) (attrs : Attrs) : List (Option Nat) :=
  let inside := decide (va + size < 2 ^ 64) && decide (va + size ≤ USER_END)
  if !attrs.user || !inside then [] else t.mapRangeCalls m va pa size attrs false

end PageTable

/-- The tables by their places: the level, and the digits of the way there. -/
def tables (T : TableTree Nat) (a : Nat × Nat) : Option Nat := T.table a.1 a.2

theorem tables_link {T : TableTree Nat} {q c : Nat} :
    tables (T.link l q c) = Function.update (tables T) (l + 1, q) (some c) := by
  funext a
  rcases a with ⟨k, r⟩
  by_cases h : k = l + 1 ∧ r = q
  · rcases h with ⟨rfl, rfl⟩
    simp [tables, TableTree.link]
  · rw [Function.update_of_ne (by simpa using h)]
    exact TableTree.table_link_of_ne h

/-- The memory grew by `calls`: the tree has the tables that were granted, at places that satisfy `P`, and
they are the next ones the allocator had. -/
structure Grew (t : PageTable) (P : Nat × Nat → Prop) (m : TableMemory) (T : TableTree Nat)
    (calls : List (Option Nat)) (m' : TableMemory) (T' : TableTree Nat) : Prop where
  inv : Inv t m' T'
  asked : Asked P (tables T) calls (tables T')
  answers : m.answers.filterMap id = calls.filterMap id ++ m'.answers.filterMap id

/-- Leaves may change without a call. -/
theorem Grew.same (h : Inv t m' T') (ht : T'.table = T.table) (ha : m'.answers = m.answers) :
    Grew t P m T [] m' T' := by
  refine ⟨h, ?_, by rw [ha]; rfl⟩
  rw [show tables T' = tables T from funext fun a => by rw [tables, ht]; rfl]
  exact .done

theorem Grew.trans (h : Grew t P m T calls m' T') (h' : Grew t P m' T' calls' m'' T'') :
    Grew t P m T (calls ++ calls') m'' T'' := by
  refine ⟨h'.inv, h.asked.trans h'.asked, ?_⟩
  rw [h.answers, h'.answers, List.filterMap_append, List.append_assoc]

theorem Grew.mono (h : Grew t P m T calls m' T') (hpq : ∀ a, P a → Q a) : Grew t Q m T calls m' T' :=
  ⟨h.inv, h.asked.mono hpq, h.answers⟩

/-- The places of the tables on the way to an address. -/
def OnWay (va : Nat) (a : Nat × Nat) : Prop := ∃ l < 3, a = (l + 1, place va l)

/-- The places on the ways to a range, as `map_range` counts its addresses. -/
def OnWays (va off size : Nat) (a : Nat × Nat) : Prop := ∃ x, off ≤ x ∧ x < size ∧ OnWay ((va + x) % 2 ^ 64) a

theorem allocTable_answers (m : TableMemory) :
    m.answers.filterMap id = [m.allocTable.1].filterMap id ++ m.allocTable.2.answers.filterMap id := by
  unfold TableMemory.allocTable
  split
  next h => simp
  next h => simp [h]
  next h => simp [h]

/-- **One turn of `entry`**: the table of the next level, which may be new; the leaves stay. -/
theorem descend_grew (h : Inv t m T) (hl : l < 3) (ht : T.table l (place va l / 512) = some table) :
    ∃ T', Grew t (OnWay va) m T (descendCalls m va table l) (descend m va table l).2 T' ∧ T'.leaf = T.leaf ∧
      ∀ c, (descend m va table l).1 = .ok c → T'.table (l + 1) (place va l) = some c := by
  have hplace : OnWay va (l + 1, place va l) := ⟨l, hl, rfl⟩
  have hans := allocTable_answers m
  have hd := descend_cases h hl ht
  unfold descendCalls
  generalize descend m va table l = r at hd
  cases hd with
  | found hT hc =>
    rw [if_pos hT]
    exact ⟨T, .same h rfl rfl, rfl, fun c' hc' => by cases hc'; exact hc⟩
  | refused hno h0 hn ha h' =>
    rw [if_neg hno, if_pos h0]
    rw [ha] at hans ⊢
    exact ⟨T, ⟨h', .refused hplace hn .done, hans⟩, rfl, nofun⟩
  | linked hno h0 hn ha h' =>
    rw [if_neg hno, if_pos h0]
    rw [ha] at hans ⊢
    refine ⟨_, ⟨h', .granted hplace hn ?_, hans⟩, rfl, fun c' hc' => by cases hc'; exact table_link_self⟩
    rw [← tables_link]
    exact .done
  | blocked hno h0 =>
    rw [if_neg hno, if_neg h0]
    exact ⟨T, .same h rfl rfl, rfl, nofun⟩

theorem entryLoop_grew {n : Nat} (h : Inv t m T) (va : Nat) (hl : l + n ≤ 3)
    (ht : T.table l (place va l / 512) = some table) :
    ∃ T', Grew t (OnWay va) m T (entryLoopCalls va n l table m) (entryLoop va n l table m).2 T' ∧ T'.leaf = T.leaf ∧
      ∀ c, (entryLoop va n l table m).1 = .ok c → T'.table (l + n) (place va (l + n) / 512) = some c := by
  induction n generalizing l table m T with
  | zero =>
    refine ⟨T, .same h rfl rfl, rfl, fun c hc => ?_⟩
    cases hc
    exact ht
  | succ n ih =>
    obtain ⟨T₁, h₁, hleaf, hok⟩ := descend_grew h (by omega : l < 3) ht
    unfold entryLoop entryLoopCalls
    rcases hd : descend m va table l with ⟨e | c, m₁⟩
    · rw [hd] at h₁
      refine ⟨T₁, ?_, hleaf, nofun⟩
      rw [List.append_nil]
      exact h₁
    · rw [hd] at h₁ hok
      have hc := hok c rfl
      rw [← place_succ (by omega)] at hc
      obtain ⟨T', h', hleaf', hok'⟩ := ih h₁.inv (by omega) hc
      rw [add_right_comm] at hok'
      exact ⟨T', h₁.trans h', hleaf'.trans hleaf, hok'⟩

end

/-- **`entry`**: the word of the place, in a table of its level. -/
theorem entry_spec (h : Inv t m T) (va : Nat) (hl : level ≤ 3) :
    ∃ T', Grew t (OnWay va) m T (entryLoopCalls va level 0 t.root m) (t.entry m va level).2 T' ∧ T'.leaf = T.leaf ∧
      ∀ slot, (t.entry m va level).1 = .ok slot →
        ∃ table, T'.table level (place va level / 512) = some table ∧ slot = table + index va level * 8 := by
  obtain ⟨T', h', hleaf, hok⟩ := entryLoop_grew (n := level) h va (by omega) (h.root va)
  unfold PageTable.entry
  rw [zero_add] at hok
  split
  · next table m' he =>
    rw [he] at h' hok
    refine ⟨T', h', hleaf, fun slot hs => ⟨table, hok table rfl, ?_⟩⟩
    cases hs
    rfl
  · next e m' he =>
    rw [he] at h'
    exact ⟨T', h', hleaf, nofun⟩

/-! ## One leaf -/

/-- A leaf that its level may hold. -/
def Allowed (level d : Nat) : Prop := level = 2 ∧ IsBlock d ∨ level = 3 ∧ IsPage d

theorem Inv.set {va : Nat} (h : Inv t m T) (ht : T.table level (place va level / 512) = some table)
    (hn : T.table (level + 1) (place va level) = none) (hd : Allowed level d ∨ level = 3 ∧ d = 0) :
    Inv t (m.write (table + index va level * 8) d) (T.setLeaf level (place va level) d) := by
  have hl : level ≤ 3 := by
    have := (h.holds.table ht).1
    simp only [layout] at this
    omega
  have hleaf : ∀ {l q}, l ≠ level → (T.setLeaf level (place va level) d).leaf l q = T.leaf l q := fun hne =>
    leaf_setLeaf_of_ne fun hk => hne hk.1
  refine ⟨?_, fun l q hlt => ?_, fun q hq => ?_, fun q hq => ?_,
    h.sound.sublist (List.Sublist.refl _), h.fresh⟩
  · rw [index_eq hl]
    exact h.holds.set ht hn
  · have hne : l ≠ level := by
      rcases hd with (⟨rfl, -⟩ | ⟨rfl, -⟩) | ⟨rfl, -⟩ <;> omega
    rw [hleaf hne]
    exact h.low l q hlt
  · by_cases hk : 2 = level ∧ q = place va level
    · obtain ⟨rfl, rfl⟩ := hk
      rw [leaf_setLeaf_self]
      rcases hd with (⟨-, hb⟩ | ⟨h3, -⟩) | ⟨h3, -⟩
      · exact hb
      · omega
      · omega
    · rw [leaf_setLeaf_of_ne hk] at hq ⊢
      exact h.block q hq
  · by_cases hk : 3 = level ∧ q = place va level
    · obtain ⟨rfl, rfl⟩ := hk
      rw [leaf_setLeaf_self] at hq ⊢
      rcases hd with (⟨h2, -⟩ | ⟨-, hp⟩) | ⟨-, h0⟩
      · omega
      · exact hp
      · exact absurd h0 hq
    · rw [leaf_setLeaf_of_ne hk] at hq ⊢
      exact h.page q hq

/-- One range of the tree `T` was unmapped and leads to `p` in `T'`, with the bits of the attributes; nothing
else changed. The range begins at the low 48 bits `b`. -/
def Maps (T T' : TableTree Nat) (b p n : Nat) (attrs : Attrs) : Prop :=
  ∀ w, (b ≤ w % 2 ^ 48 ∧ w % 2 ^ 48 < b + n →
      look T w = none ∧ ∃ d, look T' w = some (p + (w % 2 ^ 48 - b), d) ∧ attrBits d = attrs.bits) ∧
    (¬(b ≤ w % 2 ^ 48 ∧ w % 2 ^ 48 < b + n) → look T' w = look T w)

theorem look_congr (h : T'.leaf = T.leaf) (w : Nat) : look T' w = look T w := by
  unfold look
  rw [h]

theorem maps_of_leaf {attrs : Attrs} (h : T'.leaf = T.leaf) : Maps T T' b p 0 attrs :=
  fun w => ⟨fun hw => by omega, fun _ => look_congr h w⟩

/-- Two ranges, one after the other. -/
theorem Maps.trans {T₁ T₂ T₃ : TableTree Nat} {k : Nat} {attrs : Attrs} (h₁ : Maps T₁ T₂ b p n attrs)
    (h₂ : Maps T₂ T₃ (b + n) (p + n) k attrs) : Maps T₁ T₃ b p (n + k) attrs := by
  intro w
  obtain ⟨hin₁, hout₁⟩ := h₁ w
  obtain ⟨hin₂, hout₂⟩ := h₂ w
  constructor
  · intro hw
    by_cases hn : w % 2 ^ 48 < b + n
    · obtain ⟨hnone, d, hd, ha⟩ := hin₁ ⟨hw.1, hn⟩
      rw [hout₂ (by omega)]
      exact ⟨hnone, d, hd, ha⟩
    · obtain ⟨hnone, d, hd, ha⟩ := hin₂ ⟨by omega, by omega⟩
      rw [hout₁ (by omega)] at hnone
      refine ⟨hnone, d, ?_, ha⟩
      rw [hd]
      congr 2
      omega
  · intro hw
    rw [hout₂ (by omega), hout₁ (by omega)]

/-- The leaf of a place is all that the addresses of the place lead to. -/
theorem Inv.look_self (h : Inv t m T) (hn : T.table (level + 1) (place v level) = none)
    (hd : Allowed level (T.leaf level (place v level)))
    (hw : place w level = place v level) :
    look T w =
      some ((T.leaf level (place v level) &&& OA_MASK) + w % 2 ^ (39 - 9 * level), T.leaf level (place v level)) := by
  rcases hd with ⟨rfl, hb⟩ | ⟨rfl, hp⟩
  · rw [← hw] at hn hb ⊢
    exact look_block (h.below (by decide) hn).1 hb.ne_zero
  · rw [← hw] at hp ⊢
    exact look_page hp.ne_zero

theorem Inv.look_empty (h : Inv t m T) (ht : T.table level (place v level / 512) = some table)
    (hn : T.table (level + 1) (place v level) = none) (hl : level = 2 ∨ level = 3)
    (h0 : T.leaf level (place v level) = 0) (hw : place w level = place v level) : look T w = none := by
  rcases hl with rfl | rfl
  · rw [← hw] at hn h0
    exact look_none (h.below (by decide) hn).1 h0
  · rw [← hw] at ht h0
    rw [place_succ (by decide)] at ht
    exact look_none h0 (h.holds.inner ht)

theorem look_setLeaf_of_ne (hq : place w level ≠ q) : look (T.setLeaf level q d) w = look T w := by
  have hleaf : ∀ {k}, (T.setLeaf level q d).leaf k (place w k) = T.leaf k (place w k) := fun {k} => by
    refine leaf_setLeaf_of_ne ?_
    rintro ⟨rfl, he⟩
    exact hq he
  unfold look
  rw [hleaf, hleaf]

theorem Inv.no_table (h : Inv t m T) : T.table 4 q = none := by
  cases hc : T.table 4 q with
  | none => rfl
  | some c => exact absurd (h.holds.table hc).1 (by decide)

/-- A word that reads zero has no table and no leaf at its place. -/
theorem Inv.of_entry_zero (h : T.entry layout level q = 0) :
    T.table (level + 1) q = none ∧ T.leaf level q = 0 := by
  cases hc : T.table (level + 1) q with
  | none => exact ⟨rfl, by rwa [entry_leaf hc] at h⟩
  | some c =>
    rw [entry_table hc] at h
    have hT := isTable_tableDescriptor c
    rw [show tableDescriptor c = 0 from h] at hT
    exact absurd hT (by decide)

/-- **One step of `map_range`**: the addresses of one place, which led nowhere, get the leaf; a failed step
leaves every address as it was. -/
theorem mapLeaf_spec (h : Inv t m T) (hd : Allowed leaf.level leaf.desc) :
    ∃ T', Grew t (OnWay v) m T (entryLoopCalls v leaf.level 0 t.root m) (t.mapLeaf m v leaf).2 T' ∧
      ((t.mapLeaf m v leaf).1 ≠ .ok () → T'.leaf = T.leaf) ∧
      ((t.mapLeaf m v leaf).1 = .ok () → ∀ w,
        (place w leaf.level = place v leaf.level → look T w = none ∧
          look T' w = some ((leaf.desc &&& OA_MASK) + w % 2 ^ (39 - 9 * leaf.level), leaf.desc)) ∧
        (place w leaf.level ≠ place v leaf.level → look T' w = look T w)) := by
  have hl : leaf.level = 2 ∨ leaf.level = 3 := hd.imp And.left And.left
  obtain ⟨T₁, h₁, hleaf, hok⟩ := entry_spec h v (by omega : leaf.level ≤ 3)
  unfold mapLeaf
  split
  · next slot m₁ he =>
    rw [he] at h₁ hok
    obtain ⟨table, ht, rfl⟩ := hok slot rfl
    rw [h₁.inv.read (by omega) ht]
    split
    · exact ⟨T₁, h₁, fun _ => hleaf, nofun⟩
    · next h0 =>
      obtain ⟨hn, hz⟩ := Inv.of_entry_zero (not_not.1 h0)
      have hset := h₁.inv.set ht hn (.inl hd)
      refine ⟨_, by simpa using h₁.trans (.same hset rfl rfl), fun hne => absurd rfl hne,
        fun _ w => ⟨fun hw => ⟨?_, ?_⟩, fun hw => ?_⟩⟩
      · rw [← look_congr hleaf]
        exact h₁.inv.look_empty ht hn hl hz hw
      · have hself := hset.look_self hn (by rw [leaf_setLeaf_self]; exact hd) hw
        rwa [leaf_setLeaf_self] at hself
      · rw [look_setLeaf_of_ne hw, look_congr hleaf]
  · next e m₁ he =>
    rw [he] at h₁
    exact ⟨T₁, h₁, fun _ => hleaf, nofun⟩

/-! ## A range -/

section range

variable {va pa size off s : Nat} {attrs : Attrs} {blocks : Bool}

/-- What a range must be for the loop to map it. -/
structure Ready (va pa size off : Nat) (attrs : Attrs) : Prop extends Fits va pa size where
  valid : attrs.isValid = true
  va_aligned : va % PAGE_SIZE = 0
  pa_aligned : pa % PAGE_SIZE = 0
  size_aligned : size % PAGE_SIZE = 0
  off_aligned : off % PAGE_SIZE = 0

theorem div_eq_iff_of_aligned (hs : 0 < s) (hb : b % s = 0) : w / s = b / s ↔ b ≤ w ∧ w < b + s := by
  obtain ⟨k, rfl⟩ := Nat.dvd_of_mod_eq_zero hb
  rw [Nat.mul_div_cancel_left k hs, Nat.div_eq_iff hs, mul_comm k s]
  omega

theorem mod_of_aligned (hb : b % s = 0) (h1 : b ≤ w) (h2 : w < b + s) : w % s = w - b := by
  obtain ⟨k, rfl⟩ := Nat.dvd_of_mod_eq_zero hb
  obtain ⟨x, rfl⟩ := Nat.exists_eq_add_of_le h1
  rw [Nat.mul_add_mod, Nat.mod_eq_of_lt (by omega), Nat.add_sub_cancel_left]

/-- A leaf of `s` bytes at an aligned address covers the addresses of one place. -/
theorem covers (hs : 0 < s) (hdvd : s ∣ 2 ^ 48) (hv : v % 2 ^ 48 = b) (hb : b % s = 0) (hd : d = p) :
    (w % 2 ^ 48 / s = v % 2 ^ 48 / s ↔ b ≤ w % 2 ^ 48 ∧ w % 2 ^ 48 < b + s) ∧
      (w % 2 ^ 48 / s = v % 2 ^ 48 / s → d + w % s = p + (w % 2 ^ 48 - b)) := by
  rw [hv, hd, div_eq_iff_of_aligned hs hb]
  refine ⟨Iff.rfl, fun h => ?_⟩
  rw [← Nat.mod_mod_of_dvd w hdvd, mod_of_aligned hb h.1 h.2]

/-- A physical address past 48 bits counts only with its low ones. -/
theorem blockDescriptor_low (p : Nat) (attrs : Attrs) : blockDescriptor p attrs = blockDescriptor (p % 2 ^ 48) attrs := by
  have hlow : p % 2 ^ 48 &&& OA_MASK = p &&& OA_MASK := by
    rw [← Nat.and_two_pow_sub_one_eq_mod, Nat.and_assoc]
    rfl
  unfold blockDescriptor
  rw [hlow]

/-- The leaf of a step is one that its level may hold, whatever the addresses are. -/
theorem stepLeaf_allowed {v p rest : Nat} (hv : attrs.isValid = true) :
    Allowed (stepLeaf blocks v p rest attrs).level (stepLeaf blocks v p rest attrs).desc := by
  unfold stepLeaf
  split
  next hb =>
    simp only [Bool.and_eq_true, beq_iff_eq] at hb
    refine .inl ⟨rfl, ?_⟩
    rw [blockDescriptor_low]
    apply isBlock_blockDescriptor hv
    · rw [show BLOCK_2M = 2097152 from rfl] at *
      omega
    · omega
  next => exact .inr ⟨rfl, isPage_pageDescriptor hv⟩

/-- The leaf of a step covers the addresses of one place. -/
theorem stepLeaf_spec (h : Ready va pa size off attrs) (hlt : off < size)
    (hv : v = (va + off) % 2 ^ 64) (hleaf : leaf = stepLeaf blocks v (pa + off) (size - off) attrs) :
    attrBits leaf.desc = attrs.bits ∧ off + leaf.step ≤ size ∧ (off + leaf.step) % PAGE_SIZE = 0 ∧
      ∀ w, (place w leaf.level = place v leaf.level ↔
          va % 2 ^ 48 + off ≤ w % 2 ^ 48 ∧ w % 2 ^ 48 < va % 2 ^ 48 + off + leaf.step) ∧
        (place w leaf.level = place v leaf.level →
          (leaf.desc &&& OA_MASK) + w % 2 ^ (39 - 9 * leaf.level) = pa + off + (w % 2 ^ 48 - (va % 2 ^ 48 + off))) := by
  obtain ⟨⟨hword, hphys, hlow⟩, hvalid, hva, hpa, hsize, hoff⟩ := h
  have hpage : (pa + off) % PAGE_SIZE = 0 := by
    rw [Nat.add_mod, hpa, hoff]
    rfl
  have hbase : v % 2 ^ 48 = va % 2 ^ 48 + off := by omega
  unfold stepLeaf at hleaf
  split at hleaf
  · next hb =>
    simp only [Bool.and_eq_true, beq_iff_eq, decide_eq_true_eq] at hb
    obtain ⟨⟨⟨-, hvb⟩, hp⟩, hrest⟩ := hb
    have hoa : blockDescriptor (pa + off) attrs &&& OA_MASK = pa + off := by
      rw [blockDescriptor_eq, oa_leaf (by decide) hpage (by omega)]
    have hblock : (va % 2 ^ 48 + off) % BLOCK_2M = 0 := by
      rw [← hbase, Nat.mod_mod_of_dvd v (by decide)]
      exact hvb
    subst hleaf
    refine ⟨?_, by simp only; omega, ?_, fun w => ?_⟩
    · rw [blockDescriptor_eq, attrBits_leaf (by decide)]
    · show (off + BLOCK_2M) % PAGE_SIZE = 0
      rw [Nat.add_mod, hoff]
      decide
    · exact covers (s := BLOCK_2M) (by decide) (by decide) hbase hblock hoa
  · have hoa : pageDescriptor (pa + off) attrs &&& OA_MASK = pa + off := by
      rw [pageDescriptor_eq, oa_leaf (by decide) hpage (by omega)]
    have halign : (va % 2 ^ 48 + off) % PAGE_SIZE = 0 := by
      unfold PAGE_SIZE at *
      omega
    subst hleaf
    refine ⟨?_, ?_, ?_, fun w => ?_⟩
    · rw [pageDescriptor_eq, attrBits_leaf (by decide)]
    · show off + PAGE_SIZE ≤ size
      unfold PAGE_SIZE at *
      omega
    · show (off + PAGE_SIZE) % PAGE_SIZE = 0
      rw [Nat.add_mod, hoff]
      decide
    · exact covers (s := PAGE_SIZE) (by decide) (by decide) hbase halign hoa

/-- **The loop of `map_range`** asks on the ways to its range. It maps some part of the range from its start, and
all of it unless it fails. -/
theorem mapLoop_spec (blocks : Bool) (h : Inv t m T) (hvalid : attrs.isValid = true) :
    ∃ T', Grew t (OnWays va off size) m T (t.mapLoopCalls va pa size attrs blocks off m)
        (t.mapLoop va pa size attrs blocks off m).2 T' ∧
      (Ready va pa size off attrs → off ≤ size → ∃ n, off + n ≤ size ∧
        ((t.mapLoop va pa size attrs blocks off m).1 = .ok () → off + n = size) ∧
        Maps T T' (va % 2 ^ 48 + off) (pa + off) n attrs) := by
  induction hk : size - off using Nat.strongRecOn generalizing off m T with
  | ind k ih =>
    rw [mapLoop, mapLoopCalls]
    by_cases hlt : off < size
    · rw [dif_pos hlt, dif_pos hlt]
      obtain ⟨v, hv⟩ : ∃ v, v = (va + off) % 2 ^ 64 := ⟨_, rfl⟩
      obtain ⟨leaf, hleaf⟩ : ∃ leaf, leaf = stepLeaf blocks v (pa + off) (size - off) attrs := ⟨_, rfl⟩
      have hpos : 0 < leaf.step := hleaf ▸ stepLeaf_pos ..
      obtain ⟨T₁, h₁, hfail, hok⟩ := mapLeaf_spec h (hleaf ▸ stepLeaf_allowed hvalid)
      have h₁ := h₁.mono (Q := OnWays va off size) fun a ha => ⟨off, le_rfl, hlt, hv ▸ ha⟩
      simp only [← hv, ← hleaf]
      rcases he : t.mapLeaf m v leaf with ⟨e | u, m₁⟩
      · rw [he] at h₁ hfail
        refine ⟨T₁, ?_, fun _ _ => ⟨0, by omega, nofun, maps_of_leaf (hfail nofun)⟩⟩
        rw [List.append_nil]
        exact h₁
      · rw [he] at h₁ hok
        obtain ⟨T', h', hready⟩ := ih (size - (off + leaf.step)) (by omega) h₁.inv rfl
        refine ⟨T', h₁.trans (h'.mono ?_), fun hr _ => ?_⟩
        · rintro a ⟨x, hx, hlt', hway⟩
          exact ⟨x, by omega, hlt', hway⟩
        · obtain ⟨hattr, hstep, hmod, hplace⟩ := stepLeaf_spec hr hlt hv hleaf
          have hmaps : Maps T T₁ (va % 2 ^ 48 + off) (pa + off) leaf.step attrs := fun w => by
            obtain ⟨hin, hout⟩ := hok rfl w
            obtain ⟨hiff, haddr⟩ := hplace w
            refine ⟨fun hw => ?_, fun hw => hout fun hp => hw (hiff.1 hp)⟩
            have hp := hiff.2 hw
            exact ⟨(hin hp).1, _, by rw [(hin hp).2, haddr hp], hattr⟩
          obtain ⟨n, hn, hsize, hrest⟩ := hready { hr with off_aligned := hmod } hstep
          refine ⟨leaf.step + n, by omega, fun hres => ?_, hmaps.trans ?_⟩
          · rw [← add_assoc]
            exact hsize hres
          · rw [add_assoc, add_assoc pa]
            exact hrest
    · rw [dif_neg hlt, dif_neg hlt]
      exact ⟨T, .same h rfl rfl, fun _ _ => ⟨0, by omega, fun _ => by omega, maps_of_leaf rfl⟩⟩

/-- What a range that is mapped from its start means for the addresses. -/
theorem mapped_of_maps {r : Except MapError Unit × TableMemory} (h : Inv t m T)
    (hf : Fits va pa size) (h' : Inv t r.2 T') (hn : n ≤ size) (hok : r.1 = .ok () → n = size)
    (hmaps : Maps T T' (va % 2 ^ 48) pa n attrs) : Mapped t m va pa size attrs r := by
  obtain ⟨hword, hphys, hlow⟩ := hf
  refine ⟨fun hr x hx => ?_, fun hr w hw => ?_, fun _ w hw => ?_⟩
  · have hn := hok hr
    obtain ⟨-, d, hd, ha⟩ := (hmaps ((va + x) % 2 ^ 64)).1 (by omega)
    refine ⟨d, ?_, ha⟩
    rw [translate_eq h', hd]
    congr 2
    omega
  · rw [translate_eq h', translate_eq h]
    obtain rfl := hok hr
    exact (hmaps w).2 hw
  · rw [translate_eq h', translate_eq h] at hw
    rw [translate_eq h]
    by_cases hin : va % 2 ^ 48 ≤ w % 2 ^ 48 ∧ w % 2 ^ 48 < va % 2 ^ 48 + n
    · exact ⟨⟨hin.1, by omega⟩, ((hmaps w).1 hin).1⟩
    · exact absurd ((hmaps w).2 hin) hw

theorem mapped_refused {e : MapError} : Mapped t m va pa size attrs (.error e, m) :=
  ⟨nofun, nofun, fun _ _ hw => absurd rfl hw⟩

/-- **`map_range`** keeps the tree and does what `map` and `map_user` promise. -/
theorem mapRange_spec (h : Inv t m T) :
    (∃ T', Grew t (OnWays va 0 size) m T (t.mapRangeCalls m va pa size attrs blocks)
        (t.mapRange m va pa size attrs blocks).2 T') ∧
      (Fits va pa size → Mapped t m va pa size attrs (t.mapRange m va pa size attrs blocks)) := by
  unfold mapRange mapRangeCalls
  split_ifs with hv ha
  · exact ⟨⟨T, .same h rfl rfl⟩, fun _ => mapped_refused⟩
  · exact ⟨⟨T, .same h rfl rfl⟩, fun _ => mapped_refused⟩
  · have hvalid : attrs.isValid = true := by simpa using hv
    obtain ⟨T', h', hready⟩ := mapLoop_spec blocks h hvalid
    refine ⟨⟨T', h'⟩, fun hf => ?_⟩
    obtain ⟨n, hn, hok, hmaps⟩ := hready ⟨hf, hvalid, by omega, by omega, by omega, rfl⟩ (Nat.zero_le _)
    rw [Nat.zero_add] at hn hok
    exact mapped_of_maps h hf h'.inv hn hok hmaps

theorem mapUser_spec (h : Inv t m T) :
    (∃ T', Grew t (OnWays va 0 size) m T (t.mapUserCalls m va pa size attrs) (t.mapUser m va pa size attrs).2 T') ∧
      (Fits va pa size → Mapped t m va pa size attrs (t.mapUser m va pa size attrs)) := by
  unfold mapUser mapUserCalls
  simp only
  split
  · exact ⟨⟨T, .same h rfl rfl⟩, fun _ => mapped_refused⟩
  · exact mapRange_spec h

end range

/-! ## One page -/

section
variable {P : Nat × Nat → Prop} (h : Inv t m T)
include h

theorem walk_spec {va : Nat} (hl : l + n ≤ 3) (ht : T.table l (place va l / 512) = some table)
    (hw : walk m va n l table = some c) : T.table (l + n) (place va (l + n) / 512) = some c := by
  induction n generalizing l table with
  | zero =>
    cases hw
    exact ht
  | succ n ih =>
    rw [walk, h.read (by omega) ht] at hw
    rcases h.entry_at (show l < 3 by omega) (place va l) with ⟨u, hu, he⟩ | ⟨-, hno, -⟩
    · obtain ⟨h1, h2⟩ := (h.holds.table hu).2
      simp only [he] at hw
      rw [if_pos (isTable_tableDescriptor _), oa_tableDescriptor h1 h2] at hw
      rw [← place_succ (by omega)] at hu
      have := ih (by omega) hu hw
      rwa [add_right_comm] at this
    · simp [hno] at hw

/-- The level-3 word that `unmap_page` and `protect_page` find. -/
theorem walk_page {va : Nat} (hw : walk m va 3 0 t.root = some table) :
    T.table 3 (place va 3 / 512) = some table ∧ m.read (table + index va 3 * 8) = T.leaf 3 (place va 3) := by
  have ht := walk_spec h (by decide) (h.root va) hw
  refine ⟨ht, ?_⟩
  rw [h.read (by decide) ht, entry_leaf h.no_table]

/-- **`unmap_page`** erases the leaf of one page. -/
theorem unmapPage_spec (va : Nat) :
    (∃ T', Grew t P m T [] (t.unmapPage m va).2 T') ∧ Unmapped t m va (t.unmapPage m va) := by
  have hrefused : ∀ {e}, Unmapped t m va (.error e, m) := ⟨nofun, fun _ _ => rfl, fun _ _ _ => rfl⟩
  unfold unmapPage
  split
  · exact ⟨⟨T, .same h rfl rfl⟩, hrefused⟩
  · split
    · exact ⟨⟨T, .same h rfl rfl⟩, hrefused⟩
    · next table hw =>
      obtain ⟨ht, hread⟩ := walk_page h hw
      simp only [hread]
      split
      · next hpage =>
        have hset := h.set ht h.no_table (.inr ⟨rfl, rfl⟩)
        have hne : T.leaf 3 (place va 3) ≠ 0 := by
          intro h0
          rw [h0] at hpage
          exact absurd hpage (by decide)
        refine ⟨⟨_, .same hset rfl rfl⟩, fun pa hpa w hon => ⟨?_, ?_⟩, fun w hon => ?_, nofun⟩
        · cases hpa
          rw [translate_eq h, h.look_self h.no_table (.inr ⟨rfl, h.page _ hne⟩) hon]
          exact ⟨_, rfl⟩
        · rw [translate_eq hset]
          exact hset.look_empty ht h.no_table (.inr rfl) leaf_setLeaf_self hon
        · rw [translate_eq hset, translate_eq h]
          exact look_setLeaf_of_ne hon
      · exact ⟨⟨T, .same h rfl rfl⟩, hrefused⟩

/-- **`protect_page`** changes the access in the leaf of one page. -/
theorem protectPage_spec (va : Nat) (attrs : Attrs) :
    (∃ T', Grew t P m T [] (t.protectPage m va attrs).2 T') ∧ Protected t m va attrs (t.protectPage m va attrs) := by
  have hrefused : ∀ {e}, Protected t m va attrs (.error e, m) := ⟨nofun, fun _ _ => rfl, fun _ _ _ => rfl⟩
  unfold protectPage
  split_ifs with hv hu ha
  · exact ⟨⟨T, .same h rfl rfl⟩, hrefused⟩
  · exact ⟨⟨T, .same h rfl rfl⟩, hrefused⟩
  · exact ⟨⟨T, .same h rfl rfl⟩, hrefused⟩
  · split
    · exact ⟨⟨T, .same h rfl rfl⟩, hrefused⟩
    · next table hw =>
      obtain ⟨ht, hread⟩ := walk_page h hw
      simp only [hread]
      split
      · next hpage =>
        have hne : T.leaf 3 (place va 3) ≠ 0 := by
          intro h0
          rw [h0] at hpage
          exact absurd hpage (by decide)
        have hold := h.page _ hne
        have hnew : IsPage (changeAccess (T.leaf 3 (place va 3)) attrs) := isPage_changeAccess hold (by simpa using hv)
        have hset := h.set ht h.no_table (.inl (.inr ⟨rfl, hnew⟩))
        refine ⟨⟨_, .same hset rfl rfl⟩, fun old hok w hon => ?_, fun w hon => ?_, nofun⟩
        · cases hok
          rw [translate_eq h, translate_eq hset, h.look_self h.no_table (.inr ⟨rfl, hold⟩) hon,
            hset.look_self h.no_table (by rw [leaf_setLeaf_self]; exact .inr ⟨rfl, hnew⟩) hon,
            leaf_setLeaf_self, oa_changeAccess]
          exact ⟨_, _, rfl, rfl, without_changeAccess, changeAccess_permissions⟩
        · rw [translate_eq hset, translate_eq h]
          exact look_setLeaf_of_ne hon
      · exact ⟨⟨T, .same h rfl rfl⟩, hrefused⟩

/-! ## Runs -/

theorem exec_spec {op : Op} (hop : op.Meets) : (∃ T', Inv t (exec t m op) T') ∧ op.Does t m := by
  cases op with
  | map va pa size attrs =>
    obtain ⟨⟨T', h'⟩, hdoes⟩ := mapRange_spec h
    exact ⟨⟨T', h'.inv⟩, hdoes hop⟩
  | mapUser va pa size attrs =>
    obtain ⟨⟨T', h'⟩, hdoes⟩ := mapUser_spec h
    exact ⟨⟨T', h'.inv⟩, hdoes hop⟩
  | unmapPage va =>
    obtain ⟨⟨T', h'⟩, hdoes⟩ := unmapPage_spec (P := fun _ => False) h va
    exact ⟨⟨T', h'.inv⟩, hdoes⟩
  | protectPage va attrs =>
    obtain ⟨⟨T', h'⟩, hdoes⟩ := protectPage_spec (P := fun _ => False) h va attrs
    exact ⟨⟨T', h'.inv⟩, hdoes⟩

theorem inv_run {ops : List Op} (hops : ∀ op ∈ ops, op.Meets) : ∃ T', Inv t (run t m ops) T' := by
  induction ops generalizing m T with
  | nil => exact ⟨T, h⟩
  | cons op ops ih =>
    obtain ⟨⟨T₁, h₁⟩, -⟩ := exec_spec h (hops op List.mem_cons_self)
    exact ih h₁ fun op' hop' => hops op' (List.mem_cons_of_mem op hop')

end

theorem inv_new {m₀ : TableMemory} (hs : m₀.Sound) (hnew : new m₀ = (.ok t, m)) :
    Inv t m (single layout t.root) := by
  unfold new at hnew
  rcases allocTable_cases m₀ with ⟨m', ha, -, -⟩ | ⟨c, m', ha, hans, hw⟩
  · rw [ha] at hnew
    cases hnew
  · rw [ha] at hnew
    cases hnew
    have hframe := hs.frame c (by rw [hans]; exact List.mem_cons_self)
    have hsub : m.answers.Sublist m₀.answers := by rw [hans]; exact List.sublist_cons_self _ _
    refine ⟨holds_single (by decide) hframe fun i hi => ?_, fun _ _ _ => rfl, fun _ h0 => absurd rfl h0,
      fun _ h0 => absurd rfl h0, hs.sublist hsub, fun c' hc' l p hp => ?_⟩
    · rw [hw, if_pos]
      · rfl
      · simp only [layout] at hi ⊢
        unfold PAGE_SIZE
        omega
    · simp only [single] at hp
      split at hp
      · cases hp
        exact hs.not_mem hans hc'
      · cases hp

/-- **Translation tables translate what was mapped.** For every tree built from an empty root by calls that
succeed or fail, with an allocator that may run out at any of them: the next call does what `Mapped`,
`Unmapped` and `Protected` say, and no address leads to a leaf that is writable and executable. -/
theorem paging_safe {m₀ m : TableMemory} {t : PageTable} (hs : m₀.Sound) (hnew : new m₀ = (.ok t, m))
    (ops : List Op) (hops : ∀ op ∈ ops, op.Meets) :
    (∀ op : Op, op.Meets → op.Does t (run t m ops)) ∧
      ∀ w pa d, t.translate (run t m ops) w = some (pa, d) → ¬(Writable d ∧ Executable d) := by
  obtain ⟨T, h⟩ := inv_run (inv_new hs hnew) hops
  refine ⟨fun op hop => (exec_spec h hop).2, fun w pa d hw => ?_⟩
  rw [translate_eq h] at hw
  exact safe_of_look h hw


/-- Four frames hold the root and the tables of one page, which a program reads. -/
theorem paging_safe_one_page :
    let m₀ : TableMemory := ⟨fun _ => 0, [some 0x1000, some 0x2000, none, some 0x3000, some 0x4000]⟩
    let t : PageTable := ⟨0x1000⟩
    let m := (new m₀).2
    let attrs : Attrs := ⟨.normal, false, false, true, false⟩
    let op : Op := .mapUser 0x400000 0x80000000 4096 attrs
    m₀.Sound ∧ new m₀ = (.ok t, m) ∧ op.Meets ∧
      (t.mapUser m 0x400000 0x80000000 4096 attrs).1 = .error .noMemory ∧
      ∃ d, t.translate (run t m [op, op]) 0x400123 = some (0x80000123, d) ∧ attrBits d = attrs.bits := by
  intro m₀ t m attrs op
  have hs : m₀.Sound := by
    refine ⟨fun c hc => ?_, by decide⟩
    have hc : c = 0x1000 ∨ c = 0x2000 ∨ c = 0x3000 ∨ c = 0x4000 := by simpa [m₀] using hc
    rcases hc with rfl | rfl | rfl | rfl <;> decide
  have hnew : new m₀ = (.ok t, m) := rfl
  have hop : op.Meets := ⟨by decide, by decide, by decide⟩
  refine ⟨hs, hnew, hop, ?_, ?_⟩
  · decide +kernel
  · have hdoes : Mapped t (run t m [op]) _ _ _ _ _ := (paging_safe hs hnew [op] (by simp [hop])).1 op hop
    exact hdoes.range (by decide +kernel) 0x123 (by decide)

end Paging
