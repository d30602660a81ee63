import Mathlib.Logic.Function.Basic
import Stafeto.Lib.Bytes

/-!
# Reading the files of the boot image (services/ramfs/src/storage.rs, namespace.rs)

A file of the image has its bytes there. The first change of its name gives it an overlay, a map of `FILE_PAGES`
pages of which none is written, and `read` looks at the map from then on. Of the storage the model has the nodes
of the image's files, the overlays, the data pages and the free places of overlays, and of a change of names what
it does to these. An index outside of a page map is `none`.
-/

namespace ImageFiles

open ByteStr Function List

def PAGE : Nat := 4096

/-- `FILE_PAGES` (storage.rs:19). -/
def FILE_PAGES : Nat := 2048

/-- What `read` looks at of a `Node`, with the bytes of its entry of the image. -/
structure Node where
  live : Bool
  length : Nat
  boot : Bytes
  bootVisibleLength : Nat
  overlay : Option Nat

/-- `boot_bytes` (storage.rs:2209). -/
def Node.bootBytes (n : Node) : Bytes := n.boot.take n.bootVisibleLength

/-- `overlays` has the `pages` of each (storage.rs:347), and `free` is `inode_free`. -/
structure Storage where
  nodes : Nat → Node
  overlays : Nat → Nat → Option Nat
  data : Nat → UInt8
  free : List Nat

namespace Storage

/-- The files of the image (storage.rs:1222). -/
def new (image : Nat → Bytes) (overlays : Nat → Nat → Option Nat) (data : Nat → UInt8) (free : List Nat) :
    Storage :=
  ⟨fun token => ⟨true, (image token).length, image token, (image token).length, none⟩, overlays, data, free⟩

/-- The bytes that `read` copies from one page (storage.rs:2239). -/
def chunk (s : Storage) (n : Node) (pos amount : Nat) : Option Bytes :=
  let boot := slice n.bootBytes pos amount
  let plain := boot ++ zeros (amount - boot.length)
  match n.overlay with
  | none => some plain
  | some o =>
    if pos / PAGE < FILE_PAGES then
      match s.overlays o (pos / PAGE) with
      | none => some plain
      | some p => some ((range amount).map fun i => s.data (p * PAGE + pos % PAGE + i))
    else none

/-- The loop of `read` (storage.rs:2236). -/
def copy (s : Storage) (n : Node) (pos left : Nat) : Option Bytes :=
  if left = 0 then some []
  else
    let amount := min (PAGE - pos % PAGE) left
    (s.chunk n pos amount).bind fun c => (s.copy n (pos + amount) (left - amount)).map (c ++ ·)
termination_by left
decreasing_by
  have := Nat.mod_lt pos (show 0 < PAGE by decide)
  omega

/-- `read` (storage.rs:2224); the inner `none` when the node is gone. -/
def read (s : Storage) (token offset len : Nat) : Option (Option Bytes) :=
  let n := s.nodes token
  if n.live then
    let count := min len (n.length - offset)
    if n.overlay = none ∧ offset ≤ n.bootBytes.length ∧ count ≤ n.bootBytes.length - offset then
      some (some (slice n.bootBytes offset count))
    else (s.copy n offset count).map some
  else some none

/-- A node gets an overlay unless it has one: a place is reserved (namespace.rs:654), initialized and
published (namespace.rs:436). -/
def publish (s : Storage) (token : Nat) : Option Storage :=
  if (s.nodes token).overlay ≠ none then some s
  else
    match s.free with
    | [] => none
    | slot :: free => some { s with
        nodes := update s.nodes token { s.nodes token with overlay := some slot }
        overlays := update s.overlays slot fun _ => none
        free := free }

end Storage

/-- A change of names (`NamespaceIntent`) with the nodes at its edges, and the end of a node that has no name
and is not open. -/
inductive Op where
  | rename (source : Nat) (replaced : Option Nat)
  | link (source : Nat)
  | unlink (source : Nat)
  | reclaim (token : Nat)

/-- `overlay_token` (namespace.rs:283). -/
def Op.overlayTokens : Op → List Nat
  | .rename source replaced => source :: replaced.toList
  | .link source | .unlink source => [source]
  | .reclaim _ => []

namespace Storage

/-- Without a place for an overlay nothing changes (NO_SPACE). -/
def exec (s : Storage) : Op → Storage
  | .reclaim token => { s with
      nodes := update s.nodes token { s.nodes token with live := false, overlay := none }
      free := (s.nodes token).overlay.toList ++ s.free }
  | op => (op.overlayTokens.foldlM publish s).getD s

/-- A live file is that of the image, and no page of its overlay is written. -/
structure Kept (overlays : Nat → Nat → Option Nat) (bytes : Bytes) (n : Node) : Prop where
  file : n.live = true → n.length = bytes.length ∧ n.bootBytes = bytes
  empty : ∀ o, n.overlay = some o → ∀ i, overlays o i = none

variable {image : Nat → Bytes} {overlays : Nat → Nat → Option Nat} {bytes : Bytes} {s s' : Storage} {n : Node}
  {pos offset len left token o : Nat}

theorem Kept.clear (h : Kept overlays bytes n) (slot : Nat) : Kept (update overlays slot fun _ => none) bytes n := by
  refine ⟨h.file, fun o ho i => ?_⟩
  by_cases hs : o = slot
  · rw [hs, update_self]
  · rw [update_of_ne hs]
    exact h.empty o ho i

theorem kept_publish (h : ∀ t, Kept s.overlays (image t) (s.nodes t)) (hp : s.publish token = some s') :
    ∀ t, Kept s'.overlays (image t) (s'.nodes t) := by
  unfold publish at hp
  split at hp
  · cases hp
    exact h
  · split at hp
    · cases hp
    · next slot free _ =>
      cases hp
      refine (forall_update_iff _ _).2 ⟨⟨(h token).file, fun o ho i => ?_⟩, fun t _ => (h t).clear slot⟩
      cases ho
      simp

theorem kept_change (ts : List Nat) (h : ∀ t, Kept s.overlays (image t) (s.nodes t))
    (hp : ts.foldlM publish s = some s') : ∀ t, Kept s'.overlays (image t) (s'.nodes t) := by
  induction ts generalizing s with
  | nil =>
    cases hp
    exact h
  | cons token ts ih =>
    obtain ⟨s₁, h₁, h₂⟩ := Option.bind_eq_some_iff.1 hp
    exact ih (kept_publish h h₁) h₂

theorem kept_exec (op : Op) (h : ∀ t, Kept s.overlays (image t) (s.nodes t)) :
    ∀ t, Kept (s.exec op).overlays (image t) ((s.exec op).nodes t) := by
  have hchange : ∀ t, Kept ((op.overlayTokens.foldlM publish s).getD s).overlays (image t)
      (((op.overlayTokens.foldlM publish s).getD s).nodes t) := by
    cases hp : op.overlayTokens.foldlM publish s with
    | none => exact h
    | some s' => exact kept_change _ h hp
  cases op with
  | reclaim token => exact (forall_update_iff _ _).2 ⟨⟨nofun, nofun⟩, fun t _ => h t⟩
  | _ => exact hchange

theorem kept_run (ops : List Op) (h : ∀ t, Kept s.overlays (image t) (s.nodes t)) :
    ∀ t, Kept (ops.foldl exec s).overlays (image t) ((ops.foldl exec s).nodes t) := by
  induction ops generalizing s with
  | nil => exact h
  | cons op ops ih => exact ih (kept_exec op h)

/-- Without a written page the loop copies the bytes of the image, if there are none to copy or the map reaches as
far as they do. -/
theorem copy_eq (hempty : ∀ o, n.overlay = some o → ∀ i, s.overlays o i = none)
    (hfit : left ≤ n.bootBytes.length - pos) :
    s.copy n pos left = if n.overlay = none ∨ left = 0 ∨ pos + left ≤ FILE_PAGES * PAGE
      then some (slice n.bootBytes pos left) else none := by
  induction left using Nat.strongRecOn generalizing pos with
  | ind left ih =>
    rw [copy]
    split
    · next h0 => simp [h0, slice]
    · next h0 =>
      have hmod := Nat.mod_lt pos (show 0 < PAGE by decide)
      obtain ⟨amount, ha⟩ : ∃ amount, amount = min (PAGE - pos % PAGE) left := ⟨_, rfl⟩
      have hlen : amount - (slice n.bootBytes pos amount).length = 0 := by
        rw [length_slice]
        omega
      have hchunk : s.chunk n pos amount = if n.overlay = none ∨ pos < FILE_PAGES * PAGE
          then some (slice n.bootBytes pos amount) else none := by
        unfold chunk
        simp only [hlen, zeros, replicate_zero, append_nil]
        cases ho : n.overlay with
        | none => rfl
        | some o => simp [hempty o ho, Nat.div_lt_iff_lt_mul (show 0 < PAGE by decide)]
      simp only [← ha, hchunk]
      by_cases hin : n.overlay = none ∨ pos < FILE_PAGES * PAGE
      · rw [if_pos hin, Option.bind_some, ih (left - amount) (by omega) (by omega)]
        -- A page that begins in the map lies in it as a whole, so the rest fits just when all does.
        have hrest : (n.overlay = none ∨ left - amount = 0 ∨ pos + amount + (left - amount) ≤ FILE_PAGES * PAGE) ↔
            (n.overlay = none ∨ left = 0 ∨ pos + left ≤ FILE_PAGES * PAGE) := by
          refine or_congr_right' fun ho => ?_
          have hpos := hin.resolve_left ho
          unfold FILE_PAGES PAGE at *
          omega
        simp only [hrest]
        split
        · simp only [Option.map_some, slice, ← drop_drop, ← take_add]
          rw [Nat.add_sub_cancel' (by omega)]
        · rfl
      · rw [if_neg hin, if_neg (by rw [not_or] at hin ⊢; exact ⟨hin.1, by omega⟩), Option.bind_none]

/-- **A file of the image** reads as it is in the image, after any changes of names, exactly when it has no overlay,
there is nothing to read, or the bytes lie in the first `FILE_PAGES` pages. -/
theorem read_of_changes (image : Nat → Bytes) (overlays : Nat → Nat → Option Nat) (data : Nat → UInt8)
    (free : List Nat) (ops : List Op) (token offset len : Nat)
    (hlive : ((ops.foldl exec (new image overlays data free)).nodes token).live = true) :
    let s := ops.foldl exec (new image overlays data free)
    let count := min len ((image token).length - offset)
    s.read token offset len = some (some (slice (image token) offset len)) ↔
      (s.nodes token).overlay = none ∨ count = 0 ∨ offset + count ≤ FILE_PAGES * PAGE := by
  intro s count
  have hnew : ∀ t, Kept overlays (image t) ((new image overlays data free).nodes t) :=
    fun t => ⟨fun _ => ⟨rfl, take_length⟩, nofun⟩
  have h := kept_run (s := new image overlays data free) ops hnew token
  obtain ⟨hlength, hboot⟩ := h.file hlive
  have hslice : slice (image token) offset (min len ((image token).length - offset)) =
      slice (image token) offset len := by
    unfold slice
    rw [← length_drop, ← take_eq_take_min]
  have hfit : min len ((image token).length - offset) ≤ (s.nodes token).bootBytes.length - offset := by
    rw [hboot]
    exact min_le_right _ _
  have hcopy := copy_eq h.empty hfit
  rw [hboot, hslice] at hcopy
  simp only [read, s, count, hlive, if_true, hlength, hboot, hcopy, hslice]
  split
  · next hfast => simp [hfast.1]
  · split
    · next hroom => simpa using hroom
    · next hroom => simpa using hroom

theorem read_of_renamed :
    ([Op.rename 5 none].foldl exec (new (fun _ => [1, 2, 3]) (fun _ _ => none) (fun _ => 0) [0])).read 5 1 9 =
      some (some [2, 3]) :=
  (read_of_changes (fun _ => [1, 2, 3]) (fun _ _ => none) (fun _ => 0) [0] [.rename 5 none] 5 1 9 rfl).2
    (.inr (.inr (by simp [FILE_PAGES, PAGE])))

theorem read_past_map (hlive : (s.nodes token).live = true) (ho : (s.nodes token).overlay = some o)
    (hpos : FILE_PAGES * PAGE ≤ offset) (hlt : offset < (s.nodes token).length) (hlen : 0 < len) :
    s.read token offset len = none := by
  have hpage : ¬ offset / PAGE < FILE_PAGES := Nat.not_lt.2 ((Nat.le_div_iff_mul_le (by decide)).2 hpos)
  simp only [read, hlive, if_true]
  rw [if_neg (by simp [ho]), copy, if_neg (by omega)]
  simp [chunk, ho, hpage]

/-- A renamed file of a byte more than `FILE_PAGES` pages: the map has no page for the last byte. -/
theorem renamed_long_file : ∃ bytes : Bytes, bytes.length = FILE_PAGES * PAGE + 1 ∧
    ((new (fun _ => bytes) (fun _ _ => none) (fun _ => 0) [0]).exec (.rename 5 none)).read 5 (FILE_PAGES * PAGE) 1 =
      none := by
  obtain ⟨bytes, hlen⟩ : ∃ bytes : Bytes, bytes.length = FILE_PAGES * PAGE + 1 := ⟨_, length_zeros _⟩
  have hlt : FILE_PAGES * PAGE < bytes.length := by omega
  exact ⟨bytes, hlen, read_past_map rfl rfl le_rfl hlt one_pos⟩

end Storage
end ImageFiles
