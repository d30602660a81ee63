import Mathlib.Data.Set.Card
import Stafeto.Lib.Buddy
import Stafeto.Lib.Chain
import Stafeto.Lib.Mask

/-!
# The physical page allocator (kcore/src/frames.rs)

A binary buddy system over frames of 4 KiB. The free blocks of each order form a double list through the
free memory itself, the next frame number in a block's first word and the one before in its second; one
byte per frame says whether the frame heads a free block, an allocated block, or neither.

The memory is a function from word addresses, which programs and the kernel change as well, outside the
free frames. Frame numbers are below `2 ^ 52`, so no sum or shift of them wraps. An assertion that fails
and an index outside the bytes are `none`.

`frames_safe` is about every sequence of calls and of writes of others. It compares the allocator with a
layout of the frames into blocks (`Buddy.Layout`) and with a log of what was handed in, allocated and freed.
-/

namespace Frames

open Buddy Chain Mask Function

def PAGE_SHIFT : Nat := 12
def PAGE_SIZE : Nat := 2 ^ 12
def MAX_ORDER : Nat := 10
def NIL : Nat := 2 ^ 64 - 1
def NOT_FREE : Nat := 0
def ALLOCATED : Nat := 0x80

/-- `FrameAllocator` (frames.rs:36). -/
structure FrameAllocator where
  mem : Nat → Nat
  basePfn : Nat
  bytes : Nat → Nat
  len : Nat
  heads : Nat → Nat
  freeFrames : Nat

namespace FrameAllocator

/-- `new` (frames.rs:47). -/
def new (mem : Nat → Nat) (base len : Nat) : Option FrameAllocator :=
  if base % PAGE_SIZE = 0 then some ⟨mem, base >>> PAGE_SHIFT, fun _ => NOT_FREE, len, fun _ => NIL, 0⟩ else none

/-- `in_range` (frames.rs:192). -/
def inRange (a : FrameAllocator) (pfn order : Nat) : Bool :=
  a.basePfn ≤ pfn ∧ pfn + 1 <<< order ≤ a.basePfn + a.len

/-- `meta_at` (frames.rs:196). -/
def metaAt (a : FrameAllocator) (pfn : Nat) : Option Nat :=
  if a.basePfn ≤ pfn ∧ pfn < a.basePfn + a.len then some (a.bytes (pfn - a.basePfn)) else none

/-- `set_meta` (frames.rs:200). -/
def setMeta (a : FrameAllocator) (pfn value : Nat) : Option FrameAllocator :=
  if a.basePfn ≤ pfn ∧ pfn < a.basePfn + a.len then
    some { a with bytes := update a.bytes (pfn - a.basePfn) value }
  else none

def write (a : FrameAllocator) (pa value : Nat) : FrameAllocator := { a with mem := update a.mem pa value }

/-- The word of a frame with the next block of its list. -/
def nextWord (pfn : Nat) : Nat := pfn <<< PAGE_SHIFT

/-- The word of a frame with the block before. -/
def prevWord (pfn : Nat) : Nat := pfn <<< PAGE_SHIFT + 8

/-- `push` (frames.rs:206). -/
def push (a : FrameAllocator) (pfn order : Nat) : Option FrameAllocator :=
  let head := a.heads order
  let a := (a.write (nextWord pfn) head).write (prevWord pfn) NIL
  let a := if head ≠ NIL then a.write (prevWord head) pfn else a
  { a with heads := update a.heads order pfn }.setMeta pfn (order + 1)

/-- `unlink` (frames.rs:217). -/
def unlink (a : FrameAllocator) (pfn order : Nat) : Option FrameAllocator :=
  let next := a.mem (nextWord pfn)
  let prev := a.mem (prevWord pfn)
  let a := if prev = NIL then { a with heads := update a.heads order next } else a.write (nextWord prev) next
  let a := if next ≠ NIL then a.write (prevWord next) prev else a
  a.setMeta pfn NOT_FREE

/-- `pfn & !((1 << o) - 1)`: where a block of order `o` that covers `pfn` begins. -/
def headOf (pfn o : Nat) : Nat := without pfn (1 <<< o - 1)

/-- A test of the orders from 0 to `MAX_ORDER`, which ends with the first that holds. -/
def anyOrder (test : Nat → Option Bool) : Option Bool := (List.range (MAX_ORDER + 1)).anyM test

/-- `in_free_block` (frames.rs:167). -/
def inFreeBlock (a : FrameAllocator) (pfn : Nat) : Option Bool :=
  anyOrder fun o =>
    if a.basePfn ≤ headOf pfn o then (a.metaAt (headOf pfn o)).map fun m => m = o + 1 else some false

/-- `overlaps_a_block` (frames.rs:177). -/
def overlapsABlock (a : FrameAllocator) (pfn order : Nat) : Option Bool :=
  (anyOrder fun o =>
    if a.basePfn ≤ headOf pfn o then
      (a.metaAt (headOf pfn o)).map fun m => decide (m = o + 1 ∨ m = ALLOCATED ||| o)
    else some false).bind fun covers =>
  if covers then some true
  else if a.basePfn ≤ pfn ∧ pfn - a.basePfn + 1 <<< order ≤ a.len then
    some ((List.range (1 <<< order)).any fun i => a.bytes (pfn - a.basePfn + i) ≠ NOT_FREE)
  else none

/-- The loop of `free_block` (frames.rs:152), with the orders left above. -/
def merge (a : FrameAllocator) (pfn order : Nat) : Nat → Option FrameAllocator
  | 0 => a.push pfn order
  | n + 1 =>
    let buddy := pfn ^^^ 1 <<< order
    if a.inRange buddy order then
      (a.metaAt buddy).bind fun m =>
        if m ≠ order + 1 then a.push pfn order
        else (a.unlink buddy order).bind fun a => a.merge (min pfn buddy) (order + 1) n
    else a.push pfn order

/-- `free_block` (frames.rs:144). -/
def freeBlock (a : FrameAllocator) (pfn order : Nat) : Option FrameAllocator :=
  (a.inFreeBlock pfn).bind fun b =>
    if b then none
    else { a with freeFrames := a.freeFrames + 1 <<< order }.merge pfn order (MAX_ORDER - order)

/-- The order of the next block of a region (frames.rs:85): the largest that is aligned and fits. -/
def fitOrder (pfn last : Nat) : Nat → Nat
  | 0 => 0
  | o + 1 => if pfn % 1 <<< (o + 1) ≠ 0 ∨ last < pfn + 1 <<< (o + 1) then fitOrder pfn last o else o + 1

/-- The loop of `add_region`; every turn takes a frame at least. -/
def addFrames (a : FrameAllocator) (last : Nat) : Nat → Nat → Option FrameAllocator
  | 0, pfn => if pfn < last then none else some a
  | fuel + 1, pfn =>
    if pfn < last then
      let order := fitOrder pfn last MAX_ORDER
      (a.overlapsABlock pfn order).bind fun b =>
        if b then none
        else (a.freeBlock pfn order).bind fun a => a.addFrames last fuel (pfn + 1 <<< order)
    else some a

/-- `add_region` (frames.rs:73). -/
def addRegion (a : FrameAllocator) (base last : Nat) : Option FrameAllocator :=
  let first := (base + PAGE_SIZE - 1) / PAGE_SIZE
  let last := last >>> PAGE_SHIFT
  if last ≤ first then some a
  else if a.basePfn ≤ first ∧ last ≤ a.basePfn + a.len then a.addFrames last (last - first) first
  else none

/-- The search of `alloc` (frames.rs:104): the first order with a block, from `o` on. -/
def search (a : FrameAllocator) (o : Nat) : Nat → Option Nat
  | 0 => if a.heads o = NIL then none else some o
  | n + 1 => if a.heads o = NIL then a.search (o + 1) n else some o

/-- The splits of `alloc` (frames.rs:112): from order `order + n` down to `order`. -/
def split (a : FrameAllocator) (pfn order : Nat) : Nat → Option FrameAllocator
  | 0 => some a
  | n + 1 => (a.push (pfn + 1 <<< (order + n)) (order + n)).bind fun a => a.split pfn order n

/-- `alloc` (frames.rs:99). -/
def alloc (a : FrameAllocator) (order : Nat) : Option (Option Nat × FrameAllocator) :=
  if MAX_ORDER < order then some (none, a)
  else
    match a.search order (MAX_ORDER - order) with
    | none => some (none, a)
    | some o =>
      let pfn := a.heads o
      (a.unlink pfn o).bind fun a =>
        (a.split pfn order (o - order)).bind fun a =>
          (a.setMeta pfn (ALLOCATED ||| order)).map fun a =>
            (some (pfn <<< PAGE_SHIFT), { a with freeFrames := a.freeFrames - 1 <<< order })

/-- `free` (frames.rs:122). -/
def free (a : FrameAllocator) (pa order : Nat) : Option FrameAllocator :=
  if MAX_ORDER < order then none
  else if pa % (PAGE_SIZE <<< order) ≠ 0 then none
  else
    let pfn := pa >>> PAGE_SHIFT
    if a.inRange pfn order then
      (a.metaAt pfn).bind fun m =>
        if m ≠ ALLOCATED ||| order then none
        else (a.setMeta pfn NOT_FREE).bind fun a => a.freeBlock pfn order
    else none

end FrameAllocator

open FrameAllocator

/-! ## Sequences of calls -/

/-- What was handed in, as frames, and the blocks that are allocated, by first frame and order. -/
structure Log where
  added : Set Nat
  held : List (Nat × Nat)

inductive Op where
  | addRegion (base last : Nat)
  | alloc (order : Nat)
  | free (pa order : Nat)
  | store (pa value : Nat)

/-- The whole frames of a region. -/
def frames (base last : Nat) : Set Nat := { f | base ≤ f * PAGE_SIZE ∧ (f + 1) * PAGE_SIZE ≤ last }

/-- A frame in none of the allocated blocks of the log, but handed in. -/
def Log.free (g : Log) (f : Nat) : Prop := f ∈ g.added ∧ ∀ b ∈ g.held, ¬(b.1 ≤ f ∧ f < b.1 + 2 ^ b.2)

/-- The contracts: a region is in the span and new, what is freed came from `alloc`, and nothing else writes to
the free frames. -/
def Op.Meets (a : FrameAllocator) (g : Log) : Op → Prop
  | .addRegion base last => last < 2 ^ 64 ∧ ∀ f ∈ frames base last, f ∉ g.added ∧ a.basePfn ≤ f ∧ f < a.basePfn + a.len
  | .alloc _ => True
  | .free pa order => ∃ pfn, pa = pfn * PAGE_SIZE ∧ (pfn, order) ∈ g.held
  | .store pa _ => ¬g.free (pa / PAGE_SIZE)

def exec (a : FrameAllocator) (g : Log) : Op → Option (FrameAllocator × Log)
  | .addRegion base last => (a.addRegion base last).map fun a => (a, { g with added := g.added ∪ frames base last })
  | .alloc order => (a.alloc order).map fun
    | (none, a) => (a, g)
    | (some pa, a) => (a, { g with held := (pa / PAGE_SIZE, order) :: g.held })
  | .free pa order => (a.free pa order).map fun a => (a, { g with held := g.held.erase (pa / PAGE_SIZE, order) })
  | .store pa value => some (a.write pa value, g)

def run (a : FrameAllocator) (g : Log) : List Op → Option (FrameAllocator × Log)
  | [] => some (a, g)
  | op :: ops => (exec a g op).bind fun r => run r.1 r.2 ops

/-- Every call meets its contract in the state it is made in. -/
def Met (a : FrameAllocator) (g : Log) : List Op → Prop
  | [] => True
  | op :: ops => op.Meets a g ∧ ∀ r, exec a g op = some r → Met r.1 r.2 ops

/-! ## Words and bytes -/

namespace FrameAllocator

/-- The block after a block in its list. -/
def nextOf (a : FrameAllocator) (p : Nat) : Nat := a.mem (nextWord p)

/-- The block before a block in its list. -/
def prevOf (a : FrameAllocator) (p : Nat) : Nat := a.mem (prevWord p)

end FrameAllocator

open FrameAllocator

theorem nextWord_eq (p : Nat) : nextWord p = p * 4096 := by rw [nextWord, Nat.shiftLeft_eq]; rfl

theorem prevWord_eq (p : Nat) : prevWord p = p * 4096 + 8 := by rw [prevWord, Nat.shiftLeft_eq]; rfl

section Writes

variable (a : FrameAllocator) (p q v : Nat)

@[simp] theorem write_next_nextOf : (a.write (nextWord q) v).nextOf p = if p = q then v else a.nextOf p := by
  by_cases h : p = q
  · subst h; simp [nextOf, write]
  · have : nextWord p ≠ nextWord q := by rw [nextWord_eq, nextWord_eq]; omega
    simp [nextOf, write, h, this]

@[simp] theorem write_next_prevOf : (a.write (nextWord q) v).prevOf p = a.prevOf p := by
  have : prevWord p ≠ nextWord q := by rw [prevWord_eq, nextWord_eq]; omega
  simp [prevOf, write, this]

@[simp] theorem write_prev_nextOf : (a.write (prevWord q) v).nextOf p = a.nextOf p := by
  have : nextWord p ≠ prevWord q := by rw [nextWord_eq, prevWord_eq]; omega
  simp [nextOf, write, this]

@[simp] theorem write_prev_prevOf : (a.write (prevWord q) v).prevOf p = if p = q then v else a.prevOf p := by
  by_cases h : p = q
  · subst h; simp [prevOf, write]
  · have : prevWord p ≠ prevWord q := by rw [prevWord_eq, prevWord_eq]; omega
    simp [prevOf, write, h, this]

end Writes

theorem headOf_eq {pfn o : Nat} (h : pfn < 2 ^ 64) : headOf pfn o = 2 ^ o * (pfn / 2 ^ o) := by
  rw [headOf, Nat.one_shiftLeft, without_low h]

theorem anyM_false (test : Nat → Option Bool) (l : List Nat) (h : ∀ o ∈ l, test o = some false) :
    l.anyM test = some false := by
  induction l with
  | nil => rfl
  | cons o l ih =>
    rw [List.anyM, h o (by simp)]
    exact ih fun o ho => h o (by simp [ho])

theorem anyOrder_false {test : Nat → Option Bool} (h : ∀ o ≤ MAX_ORDER, test o = some false) : anyOrder test = some false :=
  anyM_false test _ fun o ho => h o (by have := List.mem_range.1 ho; omega)

/-! ## The invariant -/

/-- What a block is: free, allocated, or on its way between the two in the middle of a call. -/
inductive Kind where
  | free
  | held
  | loose
  deriving DecidableEq

/-- The byte of a frame. -/
def code (w : Layout Kind) (p : Nat) : Nat :=
  match w p with
  | some (.free, o, q) => if q = p then o + 1 else NOT_FREE
  | some (.held, o, q) => if q = p then ALLOCATED ||| o else NOT_FREE
  | _ => NOT_FREE

/-- The allocator keeps the layout `w`, with the free blocks of each order in `fl`. -/
structure Inv (a : FrameAllocator) (w : Layout Kind) (fl : Nat → List Nat) : Prop where
  whole : Whole MAX_ORDER w
  span : ∀ f, w f ≠ none → a.basePfn ≤ f ∧ f < a.basePfn + a.len
  small : a.basePfn + a.len ≤ NIL
  chain : ∀ o ≤ MAX_ORDER, IsDouble a.nextOf a.prevOf NIL NIL (a.heads o) (fl o)
  nodup : ∀ o, (fl o).Nodup
  mem : ∀ o p, p ∈ fl o ↔ w p = some (.free, o, p)
  byte : ∀ p, a.basePfn ≤ p → p < a.basePfn + a.len → a.bytes (p - a.basePfn) = code w p
  canon : ∀ o p, o < MAX_ORDER → w p = some (.free, o, p) → w (p ^^^ 2 ^ o) ≠ some (.free, o, p ^^^ 2 ^ o)

/-- The kind of the block of a frame. -/
def kind (w : Layout Kind) (f : Nat) : Option Kind := (w f).map (·.1)

variable {a a' : FrameAllocator} {w w' : Layout Kind} {fl : Nat → List Nat} {o p f order : Nat} {c c₀ : Kind}

theorem kind_paint : kind (paint w c o p) f = if In o p f then some c else kind w f := by
  unfold kind
  by_cases h : In o p f
  · rw [paint_in h, if_pos h]; rfl
  · rw [paint_out h, if_neg h]

theorem Inv.in_span (hI : Inv a w fl) (hp : w p = some (c, o, p)) : a.basePfn ≤ p ∧ p + 2 ^ o ≤ a.basePfn + a.len := by
  have hal := hI.whole.aligned hp
  have h1 := hI.span p (by rw [hp]; simp)
  have hlast : In o p (p + 2 ^ o - 1) := (in_iff hal).2 (by omega)
  have h2 := hI.span _ (by rw [hI.whole.all hp _ hlast]; simp)
  omega

/-- Frames that are not free change hands: only their bytes follow. -/
theorem Inv.repaint (hI : Inv a w fl) (hc : c ≠ .free) (ho : o ≤ MAX_ORDER) (hp : 2 ^ o ∣ p)
    (hin : ∀ f c' o' p', w f = some (c', o', p') → In o p f → o' ≤ o)
    (hnf : ∀ f, In o p f → kind w f ≠ some .free) (hspan : ∀ f, In o p f → a.basePfn ≤ f ∧ f < a.basePfn + a.len)
    {b : Nat → Nat} (hb : ∀ q, a.basePfn ≤ q → q < a.basePfn + a.len → b (q - a.basePfn) = code (paint w c o p) q) :
    Inv { a with bytes := b } (paint w c o p) fl := by
  have hfree : ∀ q o' p', paint w c o p q = some (.free, o', p') ↔ w q = some (.free, o', p') := by
    intro q o' p'
    by_cases hq : In o p q
    · rw [paint_in hq]
      constructor
      · intro h
        cases h
        exact absurd rfl hc
      · intro h
        exact absurd (by rw [kind, h]; rfl) (hnf q hq)
    · rw [paint_out hq]
  refine ⟨hI.whole.paint ho hp hin, fun q hq => ?_, hI.small, hI.chain, hI.nodup, fun o' p' => ?_, hb,
    fun o' p' ho' h1 h2 => ?_⟩
  · by_cases h : In o p q
    · exact hspan q h
    · rw [paint_out h] at hq
      exact hI.span q hq
  · rw [hfree]
    exact hI.mem o' p'
  · rw [hfree] at h1 h2
    exact hI.canon o' p' ho' h1 h2

/-- The byte of the first frame of a block. -/
def byteOf (c : Kind) (o : Nat) : Nat :=
  match c with
  | .free => o + 1
  | .held => ALLOCATED ||| o
  | .loose => NOT_FREE

theorem code_eq (hw : w f = some (c, o, p)) : code w f = if p = f then byteOf c o else NOT_FREE := by
  unfold code
  rw [hw]
  cases c with
  | free => rfl
  | held => rfl
  | loose => simp [byteOf]

theorem code_none (hw : w f = none) : code w f = NOT_FREE := by
  unfold code
  rw [hw]

theorem code_paint (f : Nat) :
    code (paint w c o p) f = if f = p then byteOf c o else if In o p f then NOT_FREE else code w f := by
  by_cases hf : In o p f
  · rw [code_eq (paint_in hf)]
    by_cases hfp : f = p
    · rw [if_pos hfp.symm, if_pos hfp]
    · rw [if_neg (Ne.symm hfp), if_neg hfp, if_pos hf]
  · have hfp : f ≠ p := by rintro rfl; exact hf in_self
    rw [if_neg hfp, if_neg hf]
    unfold code
    rw [paint_out hf]

section
variable (hI : Inv a w fl)
include hI

theorem byte_update (hp : w p = some (c₀, o, p)) (f : Nat) (h1 : a.basePfn ≤ f)
    (h2 : f < a.basePfn + a.len) :
    update a.bytes (p - a.basePfn) (byteOf c o) (f - a.basePfn) = code (paint w c o p) f := by
  have hspan := hI.in_span hp
  rw [code_paint]
  by_cases hf : f = p
  · subst hf; simp
  · rw [update_of_ne (by omega), hI.byte f h1 h2]
    split_ifs with hin
    · rw [code_eq (hI.whole.all hp f hin), if_neg (Ne.symm hf)]
    · rfl

theorem setMeta_eq (hp : w p = some (c, o, p)) (v : Nat) :
    a.setMeta p v = some { a with bytes := update a.bytes (p - a.basePfn) v } := by
  have := hI.in_span hp
  have := Nat.two_pow_pos o
  exact if_pos ⟨by omega, by omega⟩

theorem inv_setMeta (hp : w p = some (c₀, o, p)) (h₀ : c₀ ≠ .free) (hc : c ≠ .free) :
    ∃ bytes, a.setMeta p (byteOf c o) = some { a with bytes := bytes } ∧
      Inv { a with bytes := bytes } (paint w c o p) fl := by
  have hspan := hI.in_span hp
  have hal := hI.whole.aligned hp
  refine ⟨_, setMeta_eq hI hp _, hI.repaint hc (hI.whole.order hp) hal (fun f c' o' p' hf hin => ?_) (fun f hf => ?_)
    (fun f hf => ?_) (byte_update hI hp)⟩
  · rw [hI.whole.all hp f hin] at hf
    cases hf
    exact le_rfl
  · rw [kind, hI.whole.all hp f hf]
    simpa using h₀
  · rw [in_iff hal] at hf
    omega

/-! ## The lists -/

theorem ne_nil_of_block (hp : w p = some (c, o, p)) : p ≠ NIL := by
  have := hI.in_span hp
  have := Nat.two_pow_pos o
  have := hI.small
  omega

theorem mem_unique {o' : Nat} (h : p ∈ fl o) (h' : p ∈ fl o') : o = o' := by
  have h1 := (hI.mem o p).1 h
  have h2 := (hI.mem o' p).1 h'
  rw [h1] at h2
  cases h2
  rfl

theorem Inv.painted {c' : Kind} (hp : w p = some (c, o, p)) :
    Whole MAX_ORDER (paint w c' o p) ∧ ∀ f, paint w c' o p f ≠ none → a.basePfn ≤ f ∧ f < a.basePfn + a.len := by
  have hal := hI.whole.aligned hp
  have hspan := hI.in_span hp
  refine ⟨hI.whole.paint (hI.whole.order hp) hal fun f c' o' p' hf hin => ?_, fun f hf => ?_⟩
  · rw [hI.whole.all hp f hin] at hf
    cases hf
    exact le_rfl
  · by_cases hin : In o p f
    · rw [in_iff hal] at hin
      omega
    · rw [paint_out hin] at hf
      exact hI.span f hf

/-- A block changes its kind, and with it the list of its order alone. -/
theorem Inv.relist {m : FrameAllocator} {heads : Nat → Nat} {l : List Nat} (hp : w p = some (c₀, o, p))
    (hchain : IsDouble m.nextOf m.prevOf NIL NIL (heads o) l) (hnd : l.Nodup)
    (hother : ∀ o', o' ≠ o → heads o' = a.heads o' ∧ ∀ x ∈ fl o', m.nextOf x = a.nextOf x ∧ m.prevOf x = a.prevOf x)
    (hmem : ∀ o' q, q ∈ update fl o l o' ↔ paint w c o p q = some (.free, o', q))
    (hcanon : ∀ o' q, o' < MAX_ORDER → paint w c o p q = some (.free, o', q) →
      paint w c o p (q ^^^ 2 ^ o') ≠ some (.free, o', q ^^^ 2 ^ o')) :
    Inv { a with mem := m.mem, heads := heads, bytes := update a.bytes (p - a.basePfn) (byteOf c o) }
      (paint w c o p) (update fl o l) := by
  obtain ⟨hwhole, hspan⟩ : Whole MAX_ORDER (paint w c o p) ∧ _ := hI.painted hp
  refine ⟨hwhole, hspan, hI.small, fun o' ho' => ?_, fun o' => ?_, hmem, byte_update hI hp, hcanon⟩
  · by_cases hoo : o' = o
    · subst hoo
      rw [update_self]
      exact hchain
    · obtain ⟨hheads, hlinks⟩ := hother o' hoo
      simp only [update_of_ne hoo, hheads]
      exact (hI.chain o' ho').congr (fun x hx => (hlinks x hx).1) fun x hx => (hlinks x hx).2
  · by_cases hoo : o' = o
    · subst hoo
      rwa [update_self]
    · rw [update_of_ne hoo]
      exact hI.nodup o'

/-- The counters and the span, which the lists do not touch. -/
structure Same (a a' : FrameAllocator) : Prop where
  freeFrames : a'.freeFrames = a.freeFrames
  basePfn : a'.basePfn = a.basePfn
  len : a'.len = a.len

omit hI in
theorem Same.trans {a'' : FrameAllocator} (h : Same a a') (h' : Same a' a'') : Same a a'' :=
  ⟨h'.freeFrames.trans h.freeFrames, h'.basePfn.trans h.basePfn, h'.len.trans h.len⟩

/-- **`push`**: a loose block whose buddy is not free becomes free. -/
theorem inv_push (hp : w p = some (.loose, o, p))
    (hb : o < MAX_ORDER → w (p ^^^ 2 ^ o) ≠ some (.free, o, p ^^^ 2 ^ o)) :
    ∃ a', a.push p o = some a' ∧ Inv a' (paint w .free o p) (update fl o (p :: fl o)) ∧ Same a a' := by
  have ho := hI.whole.order hp
  have hspan := hI.in_span hp
  have hout : ∀ o', p ∉ fl o' := by
    intro o' hm
    rw [hI.mem, hp] at hm
    cases hm
  have hfree : ∀ q o' p', paint w .free o p q = some (.free, o', p') ↔
      (In o p q ∧ o' = o ∧ p' = p) ∨ w q = some (.free, o', p') := by
    intro q o' p'
    by_cases hq : In o p q
    · rw [paint_in hq, hI.whole.all hp q hq]
      simp [hq, eq_comm]
    · rw [paint_out hq]
      simp [hq]
  obtain ⟨m, hm⟩ : ∃ m : FrameAllocator, m = if a.heads o ≠ NIL
      then ((a.write (nextWord p) (a.heads o)).write (prevWord p) NIL).write (prevWord (a.heads o)) p
      else (a.write (nextWord p) (a.heads o)).write (prevWord p) NIL := ⟨_, rfl⟩
  have hhead : a.heads o ≠ p := by
    intro he
    by_cases hn : a.heads o = NIL
    · exact ne_nil_of_block hI hp (he ▸ hn)
    · exact hout o (he ▸ (hI.chain o ho).head_mem hn)
  have hnext : ∀ x, m.nextOf x = if x = p then a.heads o else a.nextOf x := by
    intro x
    rw [hm]
    split_ifs <;> simp [*]
  have hprev : ∀ x, m.prevOf x = if x = p then NIL else if x = a.heads o ∧ a.heads o ≠ NIL then p else a.prevOf x := by
    intro x
    rw [hm]
    by_cases hn : a.heads o = NIL
    · simp [hn]
    · by_cases hx : x = p
      · subst hx
        simp [hn, hhead.symm]
      · simp [hn, hx]
  have hrest : m = { a with mem := m.mem } := by
    rw [hm]
    split_ifs <;> rfl
  have hpush : a.push p o = some { a with
      mem := m.mem, heads := update a.heads o p, bytes := update a.bytes (p - a.basePfn) (byteOf .free o) } := by
    unfold push
    simp only [← hm]
    rw [hrest]
    exact if_pos ⟨hspan.1, by have := Nat.two_pow_pos o; simp only; omega⟩
  refine ⟨_, hpush, hI.relist hp ?_ (List.nodup_cons.2 ⟨hout o, hI.nodup o⟩) (fun o' hoo => ?_)
    (fun o' p' => ?_) (fun o' p' ho' h1 h2 => ?_), rfl, rfl, rfl⟩
  · rw [update_self]
    refine (hI.chain o ho).push (hI.nodup o) (ne_nil_of_block hI hp) (fun x hx => ?_) ?_ ?_ fun x hx => ?_
    · rw [hnext, if_neg (by rintro rfl; exact hout o hx)]
    · rw [hnext, if_pos rfl]
    · rw [hprev, if_pos rfl]
    · rw [hprev, if_neg (by rintro rfl; exact hout o hx)]
      by_cases hxh : x = a.heads o
      · rw [if_pos hxh, if_pos ⟨hxh, hxh ▸ (hI.chain o ho).ne_nil hx⟩]
      · rw [if_neg hxh, if_neg (fun h => hxh h.1)]
  · refine ⟨update_of_ne hoo .., fun x hx => ⟨?_, ?_⟩⟩
    · rw [hnext, if_neg (by rintro rfl; exact hout o' hx)]
    · rw [hprev, if_neg (by rintro rfl; exact hout o' hx), if_neg]
      rintro ⟨rfl, hn⟩
      exact hoo (mem_unique hI hx ((hI.chain o ho).head_mem hn))
  · rw [hfree]
    by_cases hoo : o' = o
    · subst hoo
      rw [update_self, List.mem_cons, hI.mem]
      constructor
      · rintro (rfl | h)
        · exact Or.inl ⟨in_self, rfl, rfl⟩
        · exact Or.inr h
      · rintro (⟨-, -, rfl⟩ | h)
        · exact Or.inl rfl
        · exact Or.inr h
    · rw [update_of_ne hoo, hI.mem]
      simp [hoo]
  · rw [hfree] at h1 h2
    obtain ⟨-, rfl, rfl⟩ | h1 := h1
    · obtain ⟨-, -, h2⟩ | h2 := h2
      · exact buddy_ne h2
      · exact hb ho' h2
    · obtain ⟨-, rfl, h2⟩ | h2 := h2
      · -- the other way round: the buddy was there before
        refine hb ho' ?_
        rw [← h2, buddy_buddy]
        exact h1
      · exact hI.canon o' p' ho' h1 h2

/-- **`unlink`**: a free block becomes loose. -/
theorem inv_unlink (hp : w p = some (.free, o, p)) :
    ∃ a', a.unlink p o = some a' ∧ Inv a' (paint w .loose o p) (update fl o ((fl o).erase p)) ∧
      Same a a' := by
  have ho := hI.whole.order hp
  have hspan := hI.in_span hp
  have hmem : p ∈ fl o := (hI.mem o p).2 hp
  have hC := hI.chain o ho
  have hnil : NIL ∉ fl o := fun h => hC.ne_nil h rfl
  have hfirst : a.prevOf p = NIL ↔ p = a.heads o := hC.prev_eq (hI.nodup o) hnil hmem
  have hfree : ∀ q o' p', paint w .loose o p q = some (.free, o', p') ↔ ¬In o p q ∧ w q = some (.free, o', p') := by
    intro q o' p'
    by_cases hq : In o p q
    · rw [paint_in hq]
      simp [hq]
    · rw [paint_out hq]
      simp [hq]
  obtain ⟨m, hm⟩ : ∃ m : FrameAllocator, m =
      let b := if a.prevOf p = NIL then { a with heads := update a.heads o (a.nextOf p) }
        else a.write (nextWord (a.prevOf p)) (a.nextOf p)
      if a.nextOf p ≠ NIL then b.write (prevWord (a.nextOf p)) (a.prevOf p) else b := ⟨_, rfl⟩
  have hnext : ∀ x, m.nextOf x = if a.prevOf p ≠ NIL ∧ x = a.prevOf p then a.nextOf p else a.nextOf x := by
    intro x
    rw [hm]
    by_cases h1 : a.prevOf p = NIL <;> by_cases h2 : a.nextOf p = NIL <;> simp [h1, h2] <;> rfl
  have hprev : ∀ x, m.prevOf x = if a.nextOf p ≠ NIL ∧ x = a.nextOf p then a.prevOf p else a.prevOf x := by
    intro x
    rw [hm]
    by_cases h1 : a.prevOf p = NIL <;> by_cases h2 : a.nextOf p = NIL <;> simp [h1, h2] <;> rfl
  have hheads : m.heads = if a.prevOf p = NIL then update a.heads o (a.nextOf p) else a.heads := by
    rw [hm]
    by_cases h1 : a.prevOf p = NIL <;> by_cases h2 : a.nextOf p = NIL <;> simp [h1, h2] <;> rfl
  have hrest : m = { a with mem := m.mem, heads := m.heads } := by
    rw [hm]
    by_cases h1 : a.prevOf p = NIL <;> by_cases h2 : a.nextOf p = NIL <;> simp [h1, h2, write]
  have hunlink : a.unlink p o = some { a with
      mem := m.mem, heads := m.heads, bytes := update a.bytes (p - a.basePfn) (byteOf .loose o) } := by
    have h0 : a.unlink p o = m.setMeta p NOT_FREE := by rw [hm]; rfl
    rw [h0, hrest]
    exact if_pos ⟨hspan.1, by have := Nat.two_pow_pos o; simp only; omega⟩
  -- the neighbours in the list are of its order
  have hprev_mem : a.prevOf p ≠ NIL → a.prevOf p ∈ fl o := fun h => (hC.prev_mem hmem).resolve_left h
  have hnext_mem : a.nextOf p ≠ NIL → a.nextOf p ∈ fl o := fun h => (hC.next_mem hmem).resolve_left h
  refine ⟨_, hunlink, hI.relist hp ?_ ((hI.nodup o).erase p) (fun o' hoo => ?_)
    (fun o' p' => ?_) (fun o' p' ho' h1 h2 => ?_), rfl, rfl, rfl⟩
  · have hhead : m.heads o = if p = a.heads o then a.nextOf p else a.heads o := by
      rw [hheads]
      by_cases h : p = a.heads o
      · rw [if_pos (hfirst.2 h), if_pos h, update_self]
      · rw [if_neg (fun h' => h (hfirst.1 h')), if_neg h]
    rw [hhead]
    refine hC.remove (hI.nodup o) hnil hmem (fun x hx hxp => ?_) fun x hx hxp => ?_
    · rw [hnext]
      have hxn : x = a.prevOf p → a.prevOf p ≠ NIL := fun h => h ▸ hC.ne_nil hx
      by_cases h : x = a.prevOf p
      · rw [if_pos ⟨hxn h, h⟩, if_pos h]
      · rw [if_neg (fun h' => h h'.2), if_neg h]
    · rw [hprev]
      have hxn : x = a.nextOf p → a.nextOf p ≠ NIL := fun h => h ▸ hC.ne_nil hx
      by_cases h : x = a.nextOf p
      · rw [if_pos ⟨hxn h, h⟩, if_pos h]
      · rw [if_neg (fun h' => h h'.2), if_neg h]
  · refine ⟨?_, fun x hx => ⟨?_, ?_⟩⟩
    · rw [hheads]
      split_ifs
      · exact update_of_ne hoo ..
      · rfl
    · rw [hnext, if_neg]
      rintro ⟨hn, rfl⟩
      exact hoo (mem_unique hI hx (hprev_mem hn))
    · rw [hprev, if_neg]
      rintro ⟨hn, rfl⟩
      exact hoo (mem_unique hI hx (hnext_mem hn))
  · rw [hfree]
    have hin : ∀ q, w q = some (.free, o', q) → (In o p q ↔ o' = o ∧ q = p) := by
      intro q hq
      constructor
      · intro hin
        have := hI.whole.all hp q hin
        rw [hq] at this
        cases this
        exact ⟨rfl, rfl⟩
      · rintro ⟨rfl, rfl⟩
        exact in_self
    by_cases hoo : o' = o
    · subst hoo
      rw [update_self, (hI.nodup o').mem_erase_iff, hI.mem]
      constructor
      · rintro ⟨h1, h2⟩
        exact ⟨fun h => h1 ((hin p' h2).1 h).2, h2⟩
      · rintro ⟨h1, h2⟩
        exact ⟨fun h => h1 ((hin p' h2).2 ⟨rfl, h⟩), h2⟩
    · rw [update_of_ne hoo, hI.mem]
      constructor
      · intro h
        exact ⟨fun h' => hoo ((hin p' h).1 h').1, h⟩
      · exact fun h => h.2
  · exact hI.canon o' p' ho' ((hfree ..).1 h1).2 ((hfree ..).1 h2).2

/-! ## `free_block` -/

omit hI in
/-- The byte of a block that is free or allocated tells which, and its order. -/
theorem code_iff (hW : Whole MAX_ORDER w) (c : Kind) (hc : c ≠ .loose) (ho : o ≤ MAX_ORDER) :
    code w p = byteOf c o ↔ w p = some (c, o, p) := by
  have hor : ∀ o ≤ MAX_ORDER, ALLOCATED ||| o = 128 + o := by decide
  have hzero : NOT_FREE ≠ byteOf c o := by
    cases c <;> simp_all [byteOf, NOT_FREE]
    omega
  cases hw : w p with
  | none =>
    rw [code_none hw]
    exact iff_of_false hzero nofun
  | some b =>
    obtain ⟨c', o', q⟩ := b
    rw [code_eq hw]
    split_ifs with hq
    · have ho' := hW.order hw
      have hM : MAX_ORDER = 10 := rfl
      cases c <;> cases c' <;> simp_all [byteOf] <;> omega
    · exact iff_of_false hzero (by simp [hq])

theorem metaAt_eq (h1 : a.basePfn ≤ p) (h2 : p < a.basePfn + a.len) : a.metaAt p = some (code w p) := by
  rw [metaAt, if_pos ⟨h1, h2⟩, hI.byte p h1 h2]

theorem inv_join (hp : w p = some (.loose, o, p))
    (hb : w (p ^^^ 2 ^ o) = some (.loose, o, p ^^^ 2 ^ o)) (ho : o < MAX_ORDER) :
    Inv a (paint w .loose (o + 1) (min p (p ^^^ 2 ^ o))) fl := by
  have hal := hI.whole.aligned hp
  -- every frame of the two is loose
  have hloose : ∀ f, In (o + 1) (min p (p ^^^ 2 ^ o)) f → ∃ q, w f = some (.loose, o, q) := by
    intro f hf
    rcases (in_min_buddy hal).1 hf with h | h
    · exact ⟨_, hI.whole.all hp f h⟩
    · exact ⟨_, hI.whole.all hb f h⟩
  refine hI.repaint (by simp) ho (min_buddy_dvd hal) (fun f c' o' p' hf hin => ?_) (fun f hf => ?_)
    (fun f hf => ?_) fun q h1 h2 => ?_
  · obtain ⟨q, hq⟩ := hloose f hin
    rw [hq] at hf
    cases hf
    exact Nat.le_succ _
  · obtain ⟨q, hq⟩ := hloose f hf
    simp [kind, hq]
  · obtain ⟨q, hq⟩ := hloose f hf
    exact hI.span f (by simp [hq])
  · have h0 : ∀ f, In (o + 1) (min p (p ^^^ 2 ^ o)) f → code w f = NOT_FREE := by
      intro f hf
      obtain ⟨q, hq⟩ := hloose f hf
      rw [code_eq hq]
      simp [byteOf]
    rw [hI.byte q h1 h2, code_paint]
    split_ifs with hq hin
    · subst hq
      exact h0 _ in_self
    · exact h0 q hin
    · rfl

end

/-- What a call does to the frames of one block: they become `c`, and what is allocated outside stays. -/
structure Turned (w w' : Layout Kind) (c : Kind) (o p : Nat) : Prop where
  kind : ∀ f, kind w' f = if In o p f then some c else kind w f
  held : ∀ f o' p', ¬In o p f → (w' f = some (.held, o', p') ↔ w f = some (.held, o', p'))

theorem turned_paint : Turned w (paint w c o p) c o p := by
  refine ⟨fun f => kind_paint, fun f o' p' hf => ?_⟩
  rw [paint_out hf]

/-- What the frames were painted before does not count. -/
theorem Turned.of_paint (h : Turned (paint w c₀ o p) w' c o p) : Turned w w' c o p := by
  refine ⟨fun f => ?_, fun f o' p' hf => ?_⟩
  · rw [h.kind, kind_paint]
    by_cases hf : In o p f
    · simp [hf]
    · simp [hf]
  · rw [h.held f o' p' hf, paint_out hf]

/-- **The loop of `free_block`** makes a loose block free, merged with its buddies. -/
theorem inv_merge (n : Nat) (hI : Inv a w fl) (hp : w p = some (.loose, o, p)) (hn : o + n = MAX_ORDER) :
    ∃ a' w' fl', a.merge p o n = some a' ∧ Inv a' w' fl' ∧ Turned w w' .free o p ∧ Same a a' := by
  induction n generalizing a w fl o p with
  | zero =>
    obtain ⟨a', he, hI', hS⟩ := inv_push hI hp (by omega)
    exact ⟨a', _, _, he, hI', turned_paint, hS⟩
  | succ n ih =>
    have hal := hI.whole.aligned hp
    have hpush : w (p ^^^ 2 ^ o) ≠ some (.free, o, p ^^^ 2 ^ o) → ∃ a' w' fl', a.push p o = some a' ∧ Inv a' w' fl' ∧
        Turned w w' .free o p ∧ Same a a' := by
      intro hb
      obtain ⟨a', he, hI', hS⟩ := inv_push hI hp fun _ => hb
      exact ⟨a', _, _, he, hI', turned_paint, hS⟩
    rw [merge]
    simp only [Nat.one_shiftLeft]
    by_cases hr : a.inRange (p ^^^ 2 ^ o) o = true
    · have hr' := hr
      simp only [inRange, decide_eq_true_eq] at hr'
      rw [if_pos hr, metaAt_eq hI hr'.1 (by omega), Option.bind_some]
      by_cases hm : code w (p ^^^ 2 ^ o) = o + 1
      · -- the buddy is free: one block of the two
        have hb := (code_iff hI.whole .free nofun (by omega)).1 hm
        rw [if_neg (by simpa using hm)]
        obtain ⟨a₁, he₁, hI₁, hS₁⟩ := inv_unlink hI hb
        have hbal := buddy_dvd hal
        have hnot : ¬In o (p ^^^ 2 ^ o) p := fun h => buddy_ne (eq_of_in hbal hal h in_self)
        have hI₂ := inv_join hI₁ (show paint w .loose o (p ^^^ 2 ^ o) p = some (.loose, o, p) by rw [paint_out hnot, hp])
          (paint_in in_self) (by omega)
        obtain ⟨a', w', fl', he, hI', hT, hS⟩ := ih hI₂ (paint_in in_self) (by omega)
        refine ⟨a', w', fl', by rw [he₁]; exact he, hI', ⟨fun f => ?_, fun f o' p' hf => ?_⟩, hS₁.trans hS⟩
        · rw [hT.kind, kind_paint, kind_paint]
          simp only [in_min_buddy hal]
          by_cases h1 : In o p f
          · simp [h1]
          · by_cases h2 : In o (p ^^^ 2 ^ o) f
            · have : kind w f = some .free := by rw [kind, hI.whole.all hb f h2]; rfl
              simp [h1, h2, this]
            · simp [h1, h2]
        · by_cases h2 : In o (p ^^^ 2 ^ o) f
          · -- free before, free now
            have hk : kind w' f = some .free := by
              rw [hT.kind, if_pos ((in_min_buddy hal).2 (Or.inr h2))]
            rw [hI.whole.all hb f h2]
            constructor
            · intro h
              rw [kind, h] at hk
              cases hk
            · intro h
              cases h
          · have hout : ¬In (o + 1) (min p (p ^^^ 2 ^ o)) f := by
              rw [in_min_buddy hal]
              exact fun h => h.elim hf h2
            rw [hT.held f o' p' hout, paint_out hout, paint_out h2]
      · rw [if_pos (by simpa using hm)]
        exact hpush fun h => hm ((code_iff hI.whole .free nofun (by omega)).2 h)
    · rw [if_neg hr]
      refine hpush fun h => hr ?_
      have := hI.in_span h
      simp only [inRange, Nat.one_shiftLeft, Bool.decide_and, Bool.and_eq_true, decide_eq_true_eq]
      exact this

/-- `free_frames` is the number of the free frames. -/
def Counted (a : FrameAllocator) (w : Layout Kind) : Prop :=
  a.freeFrames = count (fun f => kind w f = some .free) (a.basePfn + a.len)

theorem Counted.paint_loose (hC : Counted a w) (hnf : ∀ f, In o p f → kind w f ≠ some .free) :
    Counted a (paint w .loose o p) := by
  unfold Counted
  rw [hC]
  congr 1
  funext f
  rw [kind_paint]
  by_cases hf : In o p f
  · simp [hf, hnf f hf]
  · simp [hf]

theorem lt_of_block (hI : Inv a w fl) (hp : w p = some (c, o, p)) : p < a.basePfn + a.len ∧ p < 2 ^ 64 := by
  have := hI.in_span hp
  have := Nat.two_pow_pos o
  have := hI.small
  unfold NIL at this
  omega

theorem headOf_in (h : p < 2 ^ 64) : In o (headOf p o) p ∧ headOf p o ≤ p := by
  rw [headOf_eq h]
  refine ⟨?_, Nat.mul_div_le ..⟩
  unfold In
  rw [Nat.mul_div_cancel_left _ (Nat.two_pow_pos o)]

theorem inFreeBlock_false (hI : Inv a w fl) (hp : p < a.basePfn + a.len) (hf : kind w p ≠ some .free) :
    a.inFreeBlock p = some false := by
  have h64 : p < 2 ^ 64 := by
    have := hI.small
    unfold NIL at this
    omega
  refine anyOrder_false fun o ho => ?_
  obtain ⟨hin, hle⟩ := headOf_in (o := o) h64
  split_ifs with hb
  · rw [metaAt_eq hI hb (by omega), Option.map_some]
    congr 1
    rw [decide_eq_false_iff_not]
    intro hm
    have hw := (code_iff hI.whole .free nofun ho).1 hm
    exact hf (by rw [kind, hI.whole.all hw p hin]; rfl)
  · rfl

/-- **`free_block`** makes a loose block free. -/
theorem inv_freeBlock (hI : Inv a w fl) (hC : Counted a w) (hp : w p = some (.loose, o, p)) :
    ∃ a' w' fl', a.freeBlock p o = some a' ∧ Inv a' w' fl' ∧ Counted a' w' ∧ Turned w w' .free o p ∧
      a'.basePfn = a.basePfn ∧ a'.len = a.len := by
  have ho := hI.whole.order hp
  have hal := hI.whole.aligned hp
  have hnf : ∀ f, In o p f → kind w f ≠ some .free := by
    intro f hf
    rw [kind, hI.whole.all hp f hf]
    simp
  have hI₁ : Inv { a with freeFrames := a.freeFrames + 1 <<< o } w fl :=
    ⟨hI.whole, hI.span, hI.small, hI.chain, hI.nodup, hI.mem, hI.byte, hI.canon⟩
  obtain ⟨a', w', fl', he, hI', hT, hS⟩ := inv_merge (MAX_ORDER - o) hI₁ hp (by omega)
  refine ⟨a', w', fl', ?_, hI', ?_, hT, hS.basePfn, hS.len⟩
  · rw [freeBlock, inFreeBlock_false hI (lt_of_block hI hp).1 (hnf p in_self)]
    exact he
  · unfold Counted
    rw [hS.freeFrames, hS.basePfn, hS.len]
    rw [Nat.one_shiftLeft, hC]
    refine (count_add hal (hI.in_span hp).2 (fun f => ?_) hnf).symm
    rw [hT.kind]
    by_cases hf : In o p f
    · simp [hf]
    · simp [hf]

/-! ## `add_region` -/

theorem fitOrder_spec (pfn last n : Nat) (h : pfn < last) :
    fitOrder pfn last n ≤ n ∧ 2 ^ fitOrder pfn last n ∣ pfn ∧ pfn + 2 ^ fitOrder pfn last n ≤ last := by
  induction n with
  | zero => exact ⟨le_rfl, by simp [fitOrder], h⟩
  | succ n ih =>
    unfold fitOrder
    simp only [Nat.one_shiftLeft]
    split_ifs with hno
    · exact ⟨Nat.le_succ_of_le ih.1, ih.2⟩
    · rw [not_or, not_not, not_lt] at hno
      exact ⟨le_rfl, Nat.dvd_of_mod_eq_zero hno.1, hno.2⟩

/-- Frames that are handed in begin as a loose block. -/
theorem inv_add (hI : Inv a w fl) (ho : o ≤ MAX_ORDER) (hp : 2 ^ o ∣ p) (hnone : ∀ f, In o p f → w f = none)
    (hspan : ∀ f, In o p f → a.basePfn ≤ f ∧ f < a.basePfn + a.len) : Inv a (paint w .loose o p) fl := by
  refine hI.repaint (by simp) ho hp (fun f c' o' p' hf hin => ?_) (fun f hf => ?_) hspan fun q h1 h2 => ?_
  · rw [hnone f hin] at hf
    cases hf
  · simp [kind, hnone f hf]
  · rw [hI.byte q h1 h2, code_paint]
    split_ifs with hq hin
    · subst hq
      exact code_none (hnone _ in_self)
    · exact code_none (hnone q hin)
    · rfl

theorem overlapsABlock_false (hI : Inv a w fl) (hp : 2 ^ o ∣ p) (hnone : ∀ f, In o p f → w f = none)
    (hb : a.basePfn ≤ p) (hl : p + 2 ^ o ≤ a.basePfn + a.len) : a.overlapsABlock p o = some false := by
  have h64 : p < 2 ^ 64 := by
    have := hI.small
    unfold NIL at this
    omega
  have hcov : (anyOrder fun o => if a.basePfn ≤ headOf p o then
      (a.metaAt (headOf p o)).map fun m => decide (m = o + 1 ∨ m = ALLOCATED ||| o) else some false) = some false := by
    refine anyOrder_false fun o' ho' => ?_
    obtain ⟨hin, hle⟩ := headOf_in (o := o') h64
    split_ifs with hb'
    · rw [metaAt_eq hI hb' (by omega), Option.map_some]
      congr 1
      rw [decide_eq_false_iff_not]
      -- a block that begins there at this order would cover the frame
      have hno : ∀ c, w (headOf p o') ≠ some (c, o', headOf p o') := by
        intro c hc
        have := hI.whole.all hc p hin
        rw [hnone p in_self] at this
        cases this
      rintro (h | h)
      · exact hno .free ((code_iff hI.whole .free nofun ho').1 h)
      · exact hno .held ((code_iff hI.whole .held nofun ho').1 h)
    · rfl
  rw [overlapsABlock, hcov, Option.bind_some, if_neg (by simp), Nat.one_shiftLeft, if_pos ⟨hb, by omega⟩]
  congr 1
  rw [List.any_eq_false]
  intro i hi
  rw [List.mem_range] at hi
  have h0 := hI.byte (p + i) (by omega) (by omega)
  rw [show p + i - a.basePfn = p - a.basePfn + i by omega, code_none (hnone (p + i) ((in_iff hp).2 (by omega)))] at h0
  simp [h0]

/-- **The loop of `add_region`**: frames that are new become free. -/
theorem inv_addFrames (last fuel pfn : Nat) (hI : Inv a w fl) (hC : Counted a w) (hfuel : last ≤ pfn + fuel)
    (hnew : ∀ f, pfn ≤ f → f < last → w f = none ∧ a.basePfn ≤ f ∧ f < a.basePfn + a.len) :
    ∃ a' w' fl', a.addFrames last fuel pfn = some a' ∧ Inv a' w' fl' ∧ Counted a' w' ∧
      (∀ f, kind w' f = if pfn ≤ f ∧ f < last then some .free else kind w f) ∧
      (∀ f o' p', w' f = some (.held, o', p') ↔ w f = some (.held, o', p')) ∧
      a'.basePfn = a.basePfn ∧ a'.len = a.len := by
  induction fuel generalizing a w fl pfn with
  | zero =>
    refine ⟨a, w, fl, ?_, hI, hC, fun f => ?_, fun f o' p' => Iff.rfl, rfl, rfl⟩
    · rw [addFrames, if_neg (by omega)]
    · rw [if_neg (by omega)]
  | succ fuel ih =>
    rw [addFrames]
    by_cases hlt : pfn < last
    · rw [if_pos hlt]
      obtain ⟨ho, hal, hfit⟩ := fitOrder_spec pfn last MAX_ORDER hlt
      obtain ⟨o, hoe⟩ : ∃ o, o = fitOrder pfn last MAX_ORDER := ⟨_, rfl⟩
      rw [← hoe] at ho hal hfit
      have hregion : ∀ f, In o pfn f → w f = none ∧ a.basePfn ≤ f ∧ f < a.basePfn + a.len := by
        intro f hf
        rw [in_iff hal] at hf
        exact hnew f (by omega) (by omega)
      have hb := (hregion pfn in_self).2.1
      have hl := (hnew (pfn + 2 ^ o - 1) (by omega) (by omega)).2.2
      have hI₁ := inv_add hI ho hal (fun f hf => (hregion f hf).1) fun f hf => (hregion f hf).2
      have hC₁ := hC.paint_loose fun f (hf : In o pfn f) => by simp [kind, (hregion f hf).1]
      obtain ⟨a₂, w₂, fl₂, he₂, hI₂, hC₂, hT, h1, h2⟩ := inv_freeBlock hI₁ hC₁ (paint_in in_self)
      have hT := hT.of_paint
      have hk₂ := hT.kind
      have hheld₂ : ∀ f o' p', w₂ f = some (.held, o', p') ↔ w f = some (.held, o', p') := by
        intro f o' p'
        by_cases hf : In o pfn f
        · rw [(hregion f hf).1]
          have hk := hk₂ f
          rw [if_pos hf] at hk
          constructor
          · intro h
            rw [kind, h] at hk
            cases hk
          · intro h
            cases h
        · exact hT.held f o' p' hf
      obtain ⟨a', w', fl', he, hI', hC', hk, hheld, h3, h4⟩ := ih (pfn + 2 ^ o) hI₂ hC₂ (by omega) (by
        intro f hf1 hf2
        have := hnew f (by omega) hf2
        rw [h1, h2]
        refine ⟨?_, this.2⟩
        have hnin : ¬In o pfn f := by rw [in_iff hal]; omega
        have hkf := hk₂ f
        rw [if_neg hnin, kind, kind, this.1] at hkf
        simpa using hkf)
      refine ⟨a', w', fl', ?_, hI', hC', fun f => ?_, fun f o' p' => ?_, h3.trans h1, h4.trans h2⟩
      · simp only [← hoe]
        rw [overlapsABlock_false hI hal (fun f hf => (hregion f hf).1) hb (by omega), he₂, Nat.one_shiftLeft]
        exact he
      · rw [hk, hk₂]
        simp only [in_iff hal]
        split_ifs <;> first | rfl | omega
      · rw [hheld, hheld₂]
    · rw [if_neg hlt]
      refine ⟨a, w, fl, rfl, hI, hC, fun f => ?_, fun f o' p' => Iff.rfl, rfl, rfl⟩
      rw [if_neg (by omega)]

/-! ## `alloc` -/

theorem search_none (n : Nat) : a.search o n = none ↔ ∀ j, o ≤ j → j ≤ o + n → a.heads j = NIL := by
  induction n generalizing o with
  | zero =>
    unfold search
    constructor
    · intro h j h1 h2
      obtain rfl : j = o := by omega
      by_contra hn
      rw [if_neg hn] at h
      cases h
    · intro h
      exact if_pos (h o le_rfl le_rfl)
  | succ n ih =>
    unfold search
    by_cases hn : a.heads o = NIL
    · rw [if_pos hn, ih]
      constructor
      · intro h j h1 h2
        by_cases hj : j = o
        · rw [hj]; exact hn
        · exact h j (by omega) (by omega)
      · exact fun h j h1 h2 => h j (by omega) (by omega)
    · rw [if_neg hn]
      simp only [reduceCtorEq, false_iff]
      exact fun h => hn (h o le_rfl (by omega))

theorem search_some (n : Nat) {j : Nat} (h : a.search o n = some j) : o ≤ j ∧ j ≤ o + n ∧ a.heads j ≠ NIL := by
  induction n generalizing o with
  | zero =>
    unfold search at h
    split_ifs at h with hn
    cases h
    exact ⟨le_rfl, le_rfl, hn⟩
  | succ n ih =>
    unfold search at h
    split_ifs at h with hn
    · have := ih h
      exact ⟨by omega, by omega, this.2.2⟩
    · cases h
      exact ⟨le_rfl, by omega, hn⟩

theorem inv_split (hI : Inv a w fl) (hp : w p = some (.loose, o + 1, p)) :
    Inv a (paint (paint w .loose o p) .loose o (p + 2 ^ o)) fl := by
  have hal := hI.whole.aligned hp
  have hW := hI.whole.split hp .loose .loose
  have hloose : ∀ f, In (o + 1) p f → w f = some (.loose, o + 1, p) := fun f hf => hI.whole.all hp f hf
  -- outside nothing changes, inside all was and is loose
  have hcases : ∀ f, (∃ q q', w f = some (.loose, o + 1, q) ∧
      paint (paint w .loose o p) .loose o (p + 2 ^ o) f = some (.loose, o, q')) ∨
      paint (paint w .loose o p) .loose o (p + 2 ^ o) f = w f := by
    intro f
    by_cases h2 : In o (p + 2 ^ o) f
    · left
      exact ⟨_, _, hloose f ((in_halves hal).2 (Or.inr h2)), paint_in h2⟩
    · by_cases h1 : In o p f
      · left
        exact ⟨_, _, hloose f ((in_halves hal).2 (Or.inl h1)), by rw [paint_out h2, paint_in h1]⟩
      · right
        rw [paint_out h2, paint_out h1]
  have hfree : ∀ f o' p', paint (paint w .loose o p) .loose o (p + 2 ^ o) f = some (.free, o', p') ↔
      w f = some (.free, o', p') := by
    intro f o' p'
    rcases hcases f with ⟨q, q', h1, h2⟩ | h
    · rw [h1, h2]
      simp
    · rw [h]
  refine ⟨hW, fun f hf => ?_, hI.small, hI.chain, hI.nodup, fun o' p' => ?_, fun f h1 h2 => ?_, fun o' p' ho' h1 h2 => ?_⟩
  · refine hI.span f ?_
    rcases hcases f with ⟨q, q', h1, -⟩ | h
    · simp [h1]
    · rwa [h] at hf
  · rw [hfree]
    exact hI.mem o' p'
  · rw [hI.byte f h1 h2]
    rcases hcases f with ⟨q, q', h1, h2⟩ | h
    · rw [code_eq h1, code_eq h2]
      simp [byteOf]
    · unfold code
      rw [h]
  · rw [hfree] at h1 h2
    exact hI.canon o' p' ho' h1 h2

/-- **The splits of `alloc`**: the lower end stays loose, the rest is free. -/
theorem inv_splits (order n : Nat) (hI : Inv a w fl) (hp : w p = some (.loose, order + n, p)) :
    ∃ a' w' fl', a.split p order n = some a' ∧ Inv a' w' fl' ∧ w' p = some (.loose, order, p) ∧
      (∀ f, kind w' f = if In order p f then some .loose else if In (order + n) p f then some .free else kind w f) ∧
      (∀ f o' p', w' f = some (.held, o', p') ↔ w f = some (.held, o', p')) ∧ Same a a' := by
  induction n generalizing a w fl with
  | zero =>
    refine ⟨a, w, fl, rfl, hI, hp, fun f => ?_, fun f o' p' => Iff.rfl, rfl, rfl, rfl⟩
    by_cases hf : In order p f
    · rw [if_pos hf, kind, hI.whole.all hp f hf]
      rfl
    · rw [if_neg hf]
      exact (if_neg hf).symm
  | succ n ih =>
    obtain ⟨k, hk⟩ : ∃ k, k = order + n := ⟨_, rfl⟩
    have hp' : w p = some (.loose, k + 1, p) := by rw [hp, hk]; rfl
    have hal := hI.whole.aligned hp'
    have hlo : 2 ^ k ∣ p := dvd_trans (Nat.pow_dvd_pow 2 (Nat.le_succ k)) hal
    have hhi : 2 ^ k ∣ p + 2 ^ k := Nat.dvd_add hlo (Nat.dvd_refl _)
    have hne : ¬In k (p + 2 ^ k) p := by
      rw [in_iff hhi]
      omega
    have hI₁ := inv_split hI hp'
    obtain ⟨w₁, hw₁⟩ : ∃ w₁, w₁ = paint (paint w .loose k p) .loose k (p + 2 ^ k) := ⟨_, rfl⟩
    rw [← hw₁] at hI₁
    have hlow : w₁ p = some (.loose, k, p) := by rw [hw₁, paint_out hne, paint_in in_self]
    have hhigh : w₁ (p + 2 ^ k) = some (.loose, k, p + 2 ^ k) := by rw [hw₁, paint_in in_self]
    obtain ⟨a₂, he₂, hI₂, hS₂⟩ := inv_push hI₁ hhigh (fun _ => by
      rw [upper_buddy hal, hlow]
      simp)
    obtain ⟨a', w', fl', he, hI', hw', hkind, hheld, hS⟩ := ih hI₂ (by rw [paint_out hne, ← hk]; exact hlow)
    refine ⟨a', w', fl', ?_, hI', hw', fun f => ?_, fun f o' p' => ?_, hS₂.trans hS⟩
    · rw [split, Nat.one_shiftLeft, ← hk, he₂]
      exact he
    · rw [hkind, kind_paint, hw₁, kind_paint, kind_paint]
      show _ = if In order p f then some .loose else if In (order + n + 1) p f then some .free else kind w f
      rw [← hk]
      simp only [in_halves hal]
      by_cases hd : In k p f
      · simp [hd]
      · by_cases hu : In k (p + 2 ^ k) f
        · simp [hu]
        · simp [hd, hu]
    · rw [hheld]
      by_cases hu : In k (p + 2 ^ k) f
      · rw [paint_in hu, hI.whole.all hp' f ((in_halves hal).2 (Or.inr hu))]
        simp
      · rw [paint_out hu, hw₁, paint_out hu]
        by_cases hd : In k p f
        · rw [paint_in hd, hI.whole.all hp' f ((in_halves hal).2 (Or.inl hd))]
          simp
        · rw [paint_out hd]

theorem heads_nil_iff (hI : Inv a w fl) (ho : o ≤ MAX_ORDER) : a.heads o = NIL ↔ ∀ p, w p ≠ some (.free, o, p) := by
  rw [(hI.chain o ho).eq_nil, List.eq_nil_iff_forall_not_mem]
  exact forall_congr' fun p => not_congr (hI.mem o p)

/-- **`alloc`**: a free run becomes allocated, or no block is large enough. -/
theorem inv_alloc (hI : Inv a w fl) (hC : Counted a w) (ho : order ≤ MAX_ORDER) :
    (a.alloc order = some (none, a) ∧ ∀ o p, order ≤ o → w p ≠ some (.free, o, p)) ∨
      ∃ p a' w' fl', a.alloc order = some (some (p <<< PAGE_SHIFT), a') ∧ Inv a' w' fl' ∧ Counted a' w' ∧
        w' p = some (.held, order, p) ∧ (∀ f, In order p f → kind w f = some .free) ∧ Turned w w' .held order p ∧
        a'.basePfn = a.basePfn ∧ a'.len = a.len := by
  unfold alloc
  rw [if_neg (by omega)]
  cases hs : a.search order (MAX_ORDER - order) with
  | none =>
    left
    refine ⟨rfl, fun o p h1 hw => ?_⟩
    have h2 := hI.whole.order hw
    exact (heads_nil_iff hI h2).1 ((search_none _).1 hs o h1 (by omega)) p hw
  | some j =>
    right
    obtain ⟨h1, h2, h3⟩ := search_some _ hs
    have hj : j ≤ MAX_ORDER := by omega
    obtain ⟨p, hp⟩ : ∃ p, p = a.heads j := ⟨_, rfl⟩
    have hw : w p = some (.free, j, p) := (hI.mem j p).1 (hp ▸ (hI.chain j hj).head_mem h3)
    have hfree : ∀ f, In j p f → kind w f = some .free := by
      intro f hf
      rw [kind, hI.whole.all hw f hf]
      rfl
    have hsub : ∀ f, In order p f → In j p f := fun f hf => in_of_le h1 in_self in_self hf
    obtain ⟨a₁, he₁, hI₁, hS₁⟩ := inv_unlink hI hw
    obtain ⟨a₂, w₂, fl₂, he₂, hI₂, hw₂, hk₂, hheld₂, hS₂⟩ := inv_splits order (j - order) hI₁
      (by rw [show order + (j - order) = j by omega]; exact paint_in in_self)
    have hS := hS₁.trans hS₂
    rw [show order + (j - order) = j by omega] at hk₂
    obtain ⟨bytes, he₃, hI₃⟩ := inv_setMeta hI₂ hw₂ (by simp) (show Kind.held ≠ .free by simp)
    have hkind : ∀ f, kind (paint w₂ .held order p) f = if In order p f then some .held else kind w f := by
      intro f
      rw [kind_paint, hk₂, kind_paint]
      by_cases ho : In order p f
      · simp [ho]
      · by_cases hjf : In j p f
        · simp [ho, hfree f hjf]
        · simp [ho, hjf]
    refine ⟨p, { a₂ with bytes := bytes, freeFrames := a₂.freeFrames - 1 <<< order }, _, fl₂, ?_,
      ⟨hI₃.whole, hI₃.span, hI₃.small, hI₃.chain, hI₃.nodup, hI₃.mem, hI₃.byte, hI₃.canon⟩, ?_, paint_in in_self,
      fun f hf => hfree f (hsub f hf), ⟨hkind, fun f o' p' hf => ?_⟩, hS.basePfn, hS.len⟩
    · simp only [← hp, he₁, Option.bind_some, he₂]
      have he₃' : a₂.setMeta p (ALLOCATED ||| order) = some { a₂ with bytes := bytes } := he₃
      rw [he₃']
      rfl
    · -- the run was free and is not any more
      show a₂.freeFrames - 1 <<< order = count _ (a₂.basePfn + a₂.len)
      have hal := hI₂.whole.aligned hw₂
      have hspan := (hI₂.in_span hw₂).2
      rw [hS.basePfn, hS.len] at hspan ⊢
      rw [hS.freeFrames, hC, Nat.one_shiftLeft]
      have hcount := count_add (P := fun f => kind (paint w₂ .held order p) f = some .free)
        (Q := fun f => kind w f = some .free) hal hspan (fun f => ?_) fun f hf => ?_
      · omega
      · rw [hkind]
        by_cases hf : In order p f
        · simp [hf, hfree f (hsub f hf)]
        · simp [hf]
      · rw [hkind]
        simp [hf]
    · rw [paint_out hf, hheld₂]
      by_cases hjf : In j p f
      · rw [paint_in hjf, hI.whole.all hw f hjf]
        simp
      · rw [paint_out hjf]

/-! ## `free` and the writes of others -/

theorem inv_free (hI : Inv a w fl) (hC : Counted a w) (hp : w p = some (.held, o, p)) :
    ∃ a' w' fl', a.free (p * PAGE_SIZE) o = some a' ∧ Inv a' w' fl' ∧ Counted a' w' ∧ Turned w w' .free o p ∧
      a'.basePfn = a.basePfn ∧ a'.len = a.len := by
  have ho := hI.whole.order hp
  have hal := hI.whole.aligned hp
  have hspan := hI.in_span hp
  obtain ⟨bytes, he₁, hI₁⟩ := inv_setMeta hI hp (by simp) (show Kind.loose ≠ .free by simp)
  have hC₁ : Counted { a with bytes := bytes } (paint w .loose o p) :=
    hC.paint_loose fun f hf => by simp [kind, hI.whole.all hp f hf]
  obtain ⟨a', w', fl', he, hI', hC', hT, h1, h2⟩ := inv_freeBlock hI₁ hC₁ (paint_in in_self)
  refine ⟨a', w', fl', ?_, hI', hC', hT.of_paint, h1, h2⟩
  · have hmod : p * PAGE_SIZE % (PAGE_SIZE <<< o) = 0 := by
      rw [Nat.shiftLeft_eq, mul_comm PAGE_SIZE, Nat.mul_mod_mul_right, Nat.mod_eq_zero_of_dvd hal, zero_mul]
    have hpfn : (p * PAGE_SIZE) >>> PAGE_SHIFT = p := by
      rw [Nat.shiftRight_eq_div_pow]
      exact Nat.mul_div_cancel p (show 0 < 2 ^ 12 by decide)
    have hr : a.inRange p o = true := by
      simp only [inRange, Nat.one_shiftLeft, decide_eq_true_eq]
      exact hspan
    have hbyte : code w p = ALLOCATED ||| o := (code_iff hI.whole .held nofun ho).2 hp
    have he₁' : a.setMeta p NOT_FREE = some { a with bytes := bytes } := he₁
    rw [free, if_neg (by omega), if_neg (by simpa using hmod)]
    simp only [hpfn, hr, if_true]
    rw [metaAt_eq hI hspan.1 (by omega), Option.bind_some, if_neg (by simpa using hbyte), he₁']
    exact he

/-- A write outside the free frames does not touch the lists. -/
theorem inv_store (hI : Inv a w fl) {pa : Nat} (v : Nat) (hf : kind w (pa / PAGE_SIZE) ≠ some .free) :
    Inv (a.write pa v) w fl := by
  have hword : ∀ o x, x ∈ fl o → x ≠ pa / PAGE_SIZE := by
    rintro o x hx rfl
    exact hf (by rw [kind, (hI.mem o _).1 hx]; rfl)
  have hmem : ∀ q, q ≠ pa → (a.write pa v).mem q = a.mem q := fun q hq => update_of_ne hq _ _
  refine ⟨hI.whole, hI.span, hI.small, fun o ho => ?_, hI.nodup, hI.mem, hI.byte, hI.canon⟩
  refine (hI.chain o ho).congr (fun x hx => ?_) fun x hx => ?_
  · apply hmem (nextWord x)
    rintro rfl
    apply hword o x hx
    rw [nextWord_eq]
    exact (Nat.mul_div_cancel x (by decide)).symm
  · apply hmem (prevWord x)
    rintro rfl
    apply hword o x hx
    rw [prevWord_eq]
    unfold PAGE_SIZE
    omega

/-! ## Every sequence of calls -/

/-- The layout and the log agree, and no block is on its way. -/
structure Logged (w : Layout Kind) (g : Log) : Prop where
  added : ∀ f, f ∈ g.added ↔ w f ≠ none
  held : ∀ p o, (p, o) ∈ g.held ↔ w p = some (.held, o, p)
  nodup : g.held.Nodup
  rest : ∀ f, kind w f ≠ some .loose

variable {g : Log} {base : Nat}

theorem kind_none : kind w f = none ↔ w f = none := by simp [kind]

theorem Logged.free_iff (hW : Whole MAX_ORDER w) (hL : Logged w g) : g.free f ↔ kind w f = some .free := by
  constructor
  · rintro ⟨h1, h2⟩
    rw [hL.added] at h1
    obtain ⟨⟨c, o, p⟩, hw⟩ := Option.ne_none_iff_exists'.1 h1
    have hrest := hL.rest f
    rw [kind, hw] at hrest ⊢
    cases c with
    | free => rfl
    | loose => exact absurd rfl hrest
    | held => exact absurd ((in_iff (hW.aligned hw)).1 (hW.mem hw)) (h2 (p, o) ((hL.held p o).2 (hW.start hw)))
  · intro hk
    refine ⟨(hL.added f).2 fun h => by simp [kind, h] at hk, ?_⟩
    rintro ⟨p, o⟩ hb hin
    have hw := (hL.held p o).1 hb
    rw [kind, hW.all hw f ((in_iff (hW.aligned hw)).2 hin)] at hk
    cases hk

theorem Turned.added (hT : Turned w w' c o p) (hL : Logged w g) (hin : ∀ f, In o p f → w f ≠ none) (f : Nat) :
    f ∈ g.added ↔ w' f ≠ none := by
  rw [hL.added, ← not_iff_not, not_not, not_not, ← kind_none, ← kind_none, hT.kind]
  by_cases hf : In o p f
  · simp [hf, kind_none, hin f hf]
  · simp [hf]

theorem logged_alloc (hL : Logged w g) (hW' : Whole MAX_ORDER w') (hT : Turned w w' .held o p)
    (hp : w' p = some (.held, o, p)) (hfree : ∀ f, In o p f → kind w f = some .free) :
    Logged w' { g with held := (p, o) :: g.held } := by
  have hnew : ∀ q o', In o p q → w q ≠ some (.held, o', q) := by
    intro q o' hq hw
    have := hfree q hq
    rw [kind, hw] at this
    cases this
  have hadded : ∀ f, f ∈ g.added ↔ w' f ≠ none := by
    refine hT.added hL fun f hf hn => ?_
    have := hfree f hf
    simp [kind, hn] at this
  refine ⟨hadded, fun q o' => ?_, List.nodup_cons.2 ⟨fun hm => ?_, hL.nodup⟩, fun f => ?_⟩
  · rw [List.mem_cons, hL.held]
    by_cases hq : In o p q
    · rw [hW'.all hp q hq]
      constructor
      · rintro (h | h)
        · cases h
          rfl
        · exact absurd h (hnew q o' hq)
      · intro h
        cases h
        exact Or.inl rfl
    · rw [hT.held q o' q hq]
      constructor
      · rintro (h | h)
        · cases h
          exact absurd in_self hq
        · exact h
      · exact Or.inr
  · exact hnew p o in_self ((hL.held p o).1 hm)
  · rw [hT.kind]
    split_ifs
    · simp
    · exact hL.rest f

theorem logged_free (hW : Whole MAX_ORDER w) (hL : Logged w g) (hT : Turned w w' .free o p)
    (hp : w p = some (.held, o, p)) : Logged w' { g with held := g.held.erase (p, o) } := by
  have hadded : ∀ f, f ∈ g.added ↔ w' f ≠ none := hT.added hL fun f hf => by simp [hW.all hp f hf]
  refine ⟨hadded, fun q o' => ?_, hL.nodup.erase _, fun f => ?_⟩
  · rw [hL.nodup.mem_erase_iff, hL.held]
    by_cases hq : In o p q
    · have hk := hT.kind q
      rw [if_pos hq] at hk
      rw [hW.all hp q hq]
      constructor
      · rintro ⟨h1, h2⟩
        cases h2
        exact absurd rfl h1
      · intro h
        rw [kind, h] at hk
        cases hk
    · rw [hT.held q o' q hq]
      constructor
      · exact fun h => h.2
      · intro h
        refine ⟨?_, h⟩
        rintro he
        cases he
        exact hq in_self
  · rw [hT.kind]
    split_ifs
    · simp
    · exact hL.rest f

/-- All that holds between the calls. -/
def State (a : FrameAllocator) (g : Log) : Prop := ∃ w fl, Inv a w fl ∧ Counted a w ∧ Logged w g

theorem mem_frames {last : Nat} :
    f ∈ frames base last ↔ (base + PAGE_SIZE - 1) / PAGE_SIZE ≤ f ∧ f < last >>> PAGE_SHIFT := by
  show base ≤ f * PAGE_SIZE ∧ (f + 1) * PAGE_SIZE ≤ last ↔ _
  unfold PAGE_SIZE PAGE_SHIFT
  omega

theorem state_addRegion (hS : State a g) {last : Nat} (hm : (Op.addRegion base last).Meets a g) :
    ∃ a', a.addRegion base last = some a' ∧ State a' { g with added := g.added ∪ frames base last } := by
  obtain ⟨w, fl, hI, hC, hL⟩ := hS
  obtain ⟨-, hnew⟩ := hm
  unfold addRegion
  by_cases hle : last >>> PAGE_SHIFT ≤ (base + PAGE_SIZE - 1) / PAGE_SIZE
  · rw [if_pos hle]
    refine ⟨a, rfl, w, fl, hI, hC, ⟨fun f => ?_, hL.held, hL.nodup, hL.rest⟩⟩
    rw [Set.mem_union, hL.added, mem_frames]
    constructor
    · rintro (h | h)
      · exact h
      · omega
    · exact Or.inl
  · rw [if_neg hle]
    have h1 := hnew ((base + PAGE_SIZE - 1) / PAGE_SIZE) (mem_frames.2 (by omega))
    have h2 := hnew (last >>> PAGE_SHIFT - 1) (mem_frames.2 (by omega))
    rw [if_pos (by omega)]
    obtain ⟨a', w', fl', he, hI', hC', hk, hheld, -⟩ := inv_addFrames (last >>> PAGE_SHIFT)
      (last >>> PAGE_SHIFT - (base + PAGE_SIZE - 1) / PAGE_SIZE) ((base + PAGE_SIZE - 1) / PAGE_SIZE) hI hC (by omega)
      (fun f hf1 hf2 => by
        obtain ⟨h3, h4⟩ := hnew f (mem_frames.2 ⟨hf1, hf2⟩)
        rw [hL.added, not_not] at h3
        exact ⟨h3, h4⟩)
    refine ⟨a', he, w', fl', hI', hC', ⟨fun f => ?_, fun p o => ?_, hL.nodup, fun f => ?_⟩⟩
    · rw [Set.mem_union, hL.added, mem_frames, ← not_iff_not, not_or, not_not, not_not, ← kind_none (w := w'), hk]
      split_ifs with hf
      · simp [hf]
      · simp [hf, kind_none]
    · rw [hheld]
      exact hL.held p o
    · rw [hk]
      split_ifs
      · simp
      · exact hL.rest f

theorem shiftLeft_div (p : Nat) : p <<< PAGE_SHIFT / PAGE_SIZE = p := by
  rw [Nat.shiftLeft_eq]
  exact Nat.mul_div_cancel p (show 0 < 2 ^ 12 by decide)

theorem state_exec (hS : State a g) {op : Op} (hm : op.Meets a g) : ∃ a' g', exec a g op = some (a', g') ∧ State a' g' := by
  cases op with
  | addRegion base last =>
    obtain ⟨a', he, hS'⟩ := state_addRegion hS hm
    exact ⟨a', _, by rw [exec, he]; rfl, hS'⟩
  | alloc order =>
    by_cases ho : order ≤ MAX_ORDER
    · obtain ⟨w, fl, hI, hC, hL⟩ := hS
      rcases inv_alloc hI hC ho with ⟨he, -⟩ | ⟨p, a', w', fl', he, hI', hC', hp, hfree, hT, -⟩
      · exact ⟨a, g, by rw [exec, he]; rfl, w, fl, hI, hC, hL⟩
      · refine ⟨a', { g with held := (p, order) :: g.held }, ?_, w', fl', hI', hC',
          logged_alloc hL hI'.whole hT hp hfree⟩
        rw [exec, he]
        simp [shiftLeft_div]
    · refine ⟨a, g, ?_, hS⟩
      rw [exec, alloc, if_pos (by omega)]
      rfl
  | free pa order =>
    obtain ⟨pfn, rfl, hh⟩ := hm
    obtain ⟨w, fl, hI, hC, hL⟩ := hS
    have hp := (hL.held pfn order).1 hh
    obtain ⟨a', w', fl', he, hI', hC', hT, -⟩ := inv_free hI hC hp
    refine ⟨a', { g with held := g.held.erase (pfn, order) }, ?_, w', fl', hI', hC', logged_free hI.whole hL hT hp⟩
    rw [exec, he, Nat.mul_div_cancel pfn (show 0 < PAGE_SIZE by decide)]
    rfl
  | store pa v =>
    obtain ⟨w, fl, hI, hC, hL⟩ := hS
    exact ⟨_, _, rfl, w, fl, inv_store hI v fun h => hm ((hL.free_iff hI.whole).2 h), hC, hL⟩

theorem state_run (ops : List Op) (hS : State a g) (hm : Met a g ops) :
    ∃ a' g', run a g ops = some (a', g') ∧ State a' g' := by
  induction ops generalizing a g with
  | nil => exact ⟨a, g, rfl, hS⟩
  | cons op ops ih =>
    obtain ⟨a₁, g₁, he, hS₁⟩ := state_exec hS hm.1
    obtain ⟨a', g', he', hS'⟩ := ih hS₁ (hm.2 _ he)
    exact ⟨a', g', by rw [run, he]; exact he', hS'⟩

theorem state_new {mem : Nat → Nat} {len : Nat} (h : new mem base len = some a) (hb : base < 2 ^ 64)
    (hl : len < 2 ^ 63) : State a ⟨∅, []⟩ := by
  unfold new at h
  split_ifs at h
  cases h
  refine ⟨fun _ => none, fun _ => [], ⟨⟨?_, ?_, ?_, ?_⟩, fun f hf => absurd rfl hf, ?_, fun o _ => rfl,
    fun _ => List.nodup_nil, by simp, fun p _ _ => rfl, by simp⟩, ?_, ⟨by simp, by simp, List.nodup_nil, by simp [kind]⟩⟩
  · simp
  · simp
  · simp
  · simp
  · show base >>> PAGE_SHIFT + len ≤ NIL
    unfold PAGE_SHIFT NIL
    omega
  · simp [Counted, count, kind]

theorem Inv.count_eq (hI : Inv a w fl) (hL : Logged w g) :
    count (fun f => kind w f = some .free) (a.basePfn + a.len) = { f | g.free f }.ncard := by
  have hset : { f | g.free f } = ↑((Finset.range (a.basePfn + a.len)).filter fun f => kind w f = some .free) := by
    ext f
    rw [Finset.mem_coe, Finset.mem_filter, Finset.mem_range]
    show g.free f ↔ _
    rw [hL.free_iff hI.whole]
    refine ⟨fun h => ⟨(hI.span f fun hn => ?_).2, h⟩, fun h => h.2⟩
    simp [kind, hn] at h
  rw [hset, Set.ncard_coe_finset]
  rfl

/-- **`alloc` is complete**: it fails only when no run of its size is free. -/
theorem alloc_complete (hI : Inv a w fl) (hC : Counted a w) (hL : Logged w g) (ho : order ≤ MAX_ORDER) :
    ∃ r a', a.alloc order = some (r, a') ∧
      (r = none ↔ ¬∃ s, 2 ^ order ∣ s ∧ ∀ f, s ≤ f → f < s + 2 ^ order → g.free f) := by
  rcases inv_alloc hI hC ho with ⟨he, hno⟩ | ⟨p, a', w', fl', he, hI', -, hp, hfree, -⟩
  · refine ⟨none, a, he, fun _ => ?_, fun _ => rfl⟩
    rintro ⟨s, hs, hall⟩
    obtain ⟨o, p, hop, hw⟩ := hI.whole.complete ho hI.canon fun f hf => by
      have hk := (hL.free_iff hI.whole).1 (hall f ((in_iff hs).1 hf).1 ((in_iff hs).1 hf).2)
      obtain ⟨⟨c, o, p⟩, hw, hc⟩ := Option.map_eq_some_iff.1 hk
      cases hc
      exact ⟨o, p, hw⟩
    exact hno o p hop hw
  · have hal := hI'.whole.aligned hp
    refine ⟨_, a', he, ?_⟩
    simp only [reduceCtorEq, false_iff, not_not]
    exact ⟨p, hal, fun f h1 h2 => (hL.free_iff hI.whole).2 (hfree f ((in_iff hal).2 ⟨h1, h2⟩))⟩

/-- **The frame allocator is safe.** After any sequence of calls that meet their contracts, with any writes
outside the free frames between them: no assertion failed; the frames handed in are laid out in aligned
blocks, each free and once in the list of its order or allocated and in the log; `free_frames` counts the
free ones; no two free buddies are left; and `alloc` fails only when no run of its size is free. -/
theorem frames_safe {mem : Nat → Nat} {base len : Nat} {a₀ : FrameAllocator}
    (hnew : new mem base len = some a₀) (hb : base < 2 ^ 64) (hl : len < 2 ^ 63) (ops : List Op)
    (hm : Met a₀ ⟨∅, []⟩ ops) :
    ∃ a g, run a₀ ⟨∅, []⟩ ops = some (a, g) ∧
      (∃ w : Layout Kind, (∀ f, f ∈ g.added ↔ w f ≠ none) ∧
        (∀ f c o p, w f = some (c, o, p) → c ≠ .loose ∧ o ≤ MAX_ORDER ∧ 2 ^ o ∣ p ∧ p ≤ f ∧ f < p + 2 ^ o ∧
          ∀ f', p ≤ f' → f' < p + 2 ^ o → w f' = some (c, o, p)) ∧
        (∀ p o, (p, o) ∈ g.held ↔ w p = some (.held, o, p)) ∧ g.held.Nodup ∧
        (∀ o ≤ MAX_ORDER, ∃ l : List Nat, IsDouble a.nextOf a.prevOf NIL NIL (a.heads o) l ∧ l.Nodup ∧
          ∀ p, p ∈ l ↔ w p = some (.free, o, p)) ∧
        (∀ o p, o < MAX_ORDER → w p = some (.free, o, p) → w (p ^^^ 2 ^ o) ≠ some (.free, o, p ^^^ 2 ^ o))) ∧
      a.freeFrames = { f | g.free f }.ncard ∧
      ∀ order ≤ MAX_ORDER, ∃ r a', a.alloc order = some (r, a') ∧
        (r = none ↔ ¬∃ s, 2 ^ order ∣ s ∧ ∀ f, s ≤ f → f < s + 2 ^ order → g.free f) := by
  obtain ⟨a, g, he, w, fl, hI, hC, hL⟩ := state_run ops (state_new hnew hb hl) hm
  refine ⟨a, g, he, ⟨w, hL.added, fun f c o p hw => ?_, hL.held, hL.nodup, fun o ho => ?_, hI.canon⟩, ?_,
    fun order ho => alloc_complete hI hC hL ho⟩
  · have hal := hI.whole.aligned hw
    have hin := (in_iff hal).1 (hI.whole.mem hw)
    refine ⟨fun hc => hL.rest f ?_, hI.whole.order hw, hal, hin.1, hin.2, fun f' h1 h2 => ?_⟩
    · rw [kind, hw, hc]
      rfl
    · exact hI.whole.all hw f' ((in_iff hal).2 ⟨h1, h2⟩)
  · exact ⟨fl o, hI.chain o ho, hI.nodup o, hI.mem o⟩
  · rw [hC]
    exact hI.count_eq hL

/-- Four frames; one is allocated, which splits the block, and freed, which makes it whole again. -/
theorem frames_safe_four :
    let a₀ : FrameAllocator := ⟨fun _ => 0, 0, fun _ => NOT_FREE, 4, fun _ => NIL, 0⟩
    let ops : List Op := [.addRegion 0 16384, .alloc 0, .free 0 0]
    new (fun _ => 0) 0 4 = some a₀ ∧ Met a₀ ⟨∅, []⟩ ops ∧ ∃ a g, run a₀ ⟨∅, []⟩ ops = some (a, g) ∧
      a.freeFrames = { f | g.free f }.ncard := by
  have hnew : new (fun _ => 0) 0 4 = some ⟨fun _ => 0, 0, fun _ => NOT_FREE, 4, fun _ => NIL, 0⟩ := rfl
  have hheld : ((exec ⟨fun _ => 0, 0, fun _ => NOT_FREE, 4, fun _ => NIL, 0⟩ ⟨∅, []⟩ (.addRegion 0 16384)).bind fun r =>
      exec r.1 r.2 (.alloc 0)).map (fun r => r.2.held) = some [(0, 0)] := by rfl
  have hm : Met ⟨fun _ => 0, 0, fun _ => NOT_FREE, 4, fun _ => NIL, 0⟩ ⟨∅, []⟩
      [.addRegion 0 16384, .alloc 0, .free 0 0] := by
    refine ⟨⟨by decide, fun f hf => ?_⟩, fun r₀ h₀ => ⟨trivial, fun r hr => ⟨⟨0, rfl, ?_⟩, fun _ _ => trivial⟩⟩⟩
    · obtain ⟨-, h2⟩ := hf
      unfold PAGE_SIZE at h2
      exact ⟨by simp, Nat.zero_le _, by simp only; omega⟩
    · rw [h₀, Option.bind_some, hr, Option.map_some, Option.some.injEq] at hheld
      simp [hheld]
  obtain ⟨a, g, he, -, hc, -⟩ := frames_safe hnew (by decide) (by decide) _ hm
  exact ⟨hnew, hm, a, g, he, hc⟩

end Frames
