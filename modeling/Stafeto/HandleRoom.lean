import Stafeto.Handles

/-!
# Room for a transfer (kcore/src/handles.rs)

A transfer asks `reserve` for room for its handles first and inserts them afterwards, at a point where it
can no longer fail. What an insert needs is twofold: room below the limit, which `room` counts, and an
entry whose chunk is there, which `spare` counts. `reserve` makes both at least `n`, and an insert lowers
each by one, so that `n` inserts never come to the chunk source.
-/

namespace Handles

open Abi HandleTable

variable {T : Type} {t t' : HandleTable T} {g : Log T} {src : Source}

/-- A row of inserts that none of the sources serves. -/
def refused (reqs : List (Source × T × Nat)) : List (Source × T × Nat) :=
  reqs.map fun req => (⟨false, false⟩, req.2)

/-- As many inserts as there are room and spare entries succeed, and need nothing of a source. -/
theorem inserts_spare (reqs : List (Source × T × Nat)) (hI : Inv t g) (hroom : reqs.length ≤ t.room)
    (hspare : reqs.length ≤ spare t) :
    ∃ rs, inserts t reqs = some rs ∧ inserts t (refused reqs) = some rs ∧ rs.length = reqs.length ∧
      ∀ r ∈ rs, ∃ h, r = .ok h := by
  induction reqs generalizing t g with
  | nil => exact ⟨[], rfl, rfl, rfl, by simp⟩
  | cons req reqs ih =>
    rcases req with ⟨src, object, rights⟩
    rw [List.length_cons] at hroom hspare
    obtain ⟨h, t', he, hI', hr, hs⟩ := insert_spare hI (by omega) (by omega) object rights
    obtain ⟨rs, h1, h2, hlen, hok⟩ := ih hI' (by omega) (by omega)
    refine ⟨.ok h :: rs, ?_, ?_, by simp [hlen], ?_⟩
    · simp [inserts, he, h1]
    · simp only [refused, List.map_cons, inserts, he, Option.bind_some]
      rw [← refused, h2]
      rfl
    · intro r hr'
      rcases List.mem_cons.1 hr' with rfl | hr'
      · exact ⟨h, rfl⟩
      · exact hok r hr'

/-- **Room made for a transfer is enough.** On every table that calls made, and for `n` of at most a chunk:
`reserve` says LIMIT_REACHED exactly when `room` is below `n`, and changes nothing then; with NO_MEMORY it
changes no entry and nothing but the directory; after Ok the next `n` inserts succeed, and as they do when
every one of them is refused memory. It adds at most one chunk. -/
theorem reserve_enough {limit : Nat} {t₀ : HandleTable T} (hnew : new limit = .ok t₀) (ops : List (Op T))
    (hm : ∀ op ∈ ops, op.Meets) (hrun : run t₀ Log.fresh ops = some (t, g)) (src : Source) {n : Nat} (hn : n ≤ CHUNK) :
    ∃ r t', t.reserve src n = some (r, t') ∧
      (r = .ok () ∨ r = .error .limitReached ∨ r = .error .noMemory) ∧
      (r = .error .limitReached ↔ t.room < n) ∧
      (r = .error .limitReached → t' = t) ∧
      (r = .error .noMemory → { t' with directory := t.directory } = t ∧ t'.entry = t.entry ∧
        ∀ h, t'.get h = t.get h) ∧
      (r = .ok () → ∀ reqs : List (Source × T × Nat), reqs.length = n →
        ∃ rs, inserts t' reqs = some rs ∧ inserts t' (refused reqs) = some rs ∧ rs.length = n ∧
          ∀ x ∈ rs, ∃ h, x = .ok h) ∧
      t'.chunkCount ≤ t.chunkCount + 1 := by
  obtain ⟨_, _, he, hI⟩ := inv_run ops (inv_new hnew) hm
  rw [hrun] at he
  cases he
  obtain ⟨r, he, hr⟩ := reserve_spec hI src hn
  cases hr with
  | ok t' hle hI' hroom hspare hcc =>
    refine ⟨_, t', he, by simp, by simpa using hle, by simp, by simp, fun _ reqs hlen => ?_, hcc⟩
    obtain ⟨rs, h1, h2, h3, h4⟩ := inserts_spare reqs hI' (by omega) (by omega)
    exact ⟨rs, h1, h2, h3.trans hlen, h4⟩
  | full hlt => exact ⟨_, t, he, by simp, by simpa using hlt, by simp, by simp, by simp, Nat.le_succ _⟩
  | noMemory t' hle _ hsame hent =>
    have hcc : t'.chunkCount = t.chunkCount := by rw [← hsame]
    have hused : t'.used = t.used := by rw [← hsame]
    refine ⟨_, t', he, by simp, by simpa using hle, by simp, fun _ => ⟨hsame, hent, fun h => ?_⟩, by simp, by omega⟩
    simp [HandleTable.get, hused, hent]

/-- Room for two more in a table with one entry, without a source: the inserts find it. -/
theorem reserve_enough_second : ∃ (t t' : HandleTable Nat) (g : Log Nat),
    run ⟨none, 0, 0, 3, NO_ENTRY, 0, 0, 0, false, 0⟩ Log.fresh [.insert ⟨true, true⟩ 7 1] = some (t, g) ∧
      t.reserve ⟨false, false⟩ 2 = some (.ok (), t') ∧
      ∃ rs, inserts t' [(⟨false, false⟩, 8, 1), (⟨false, false⟩, 9, 1)] = some rs ∧ rs.length = 2 ∧
        ∀ x ∈ rs, ∃ h, x = .ok h := by
  have hnew : new (T := Nat) 3 = .ok ⟨none, 0, 0, 3, NO_ENTRY, 0, 0, 0, false, 0⟩ := rfl
  obtain ⟨r, t', he, -, -, -, -, hok, -⟩ := reserve_enough hnew [.insert ⟨true, true⟩ 7 1] (by simp [Op.Meets]) rfl
    ⟨false, false⟩ (show 2 ≤ CHUNK by decide)
  obtain rfl : .ok () = r := congrArg Prod.fst (Option.some.inj (he.symm.trans rfl)).symm
  obtain ⟨rs, hrs, -, hlen, hall⟩ := hok rfl [(⟨false, false⟩, 8, 1), (⟨false, false⟩, 9, 1)] rfl
  exact ⟨_, t', _, rfl, he, rs, hrs, hlen, hall⟩

end Handles
