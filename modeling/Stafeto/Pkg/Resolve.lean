import Stafeto.Lib.Run
import Stafeto.Pkgd.Plans
import Mathlib.Tactic

/-!
# What an install and an upgrade receive (apps/pkg/src/resolve.rs)

The pool is the records of the enabled repositories. A name that no installed package closes is answered by the
first repository that has a package of the name or one that provides it (`find`). A walk visits a record after
the records that answer its dependencies; the names on its stack are distinct, which bounds its depth, and a
name met again is a cycle (`visit`).

`Planned` is what a walk from a record gives: the records that the dependencies reach which nothing installed closes.
Records are told apart by their place in the pool, so that two of one name in two repositories may both be planned
(`group_names`); and two walks may plan one record (`upgrade_once`).
-/

namespace Resolve

open ByteStr Pkgfmt List Relation

/-- The bytes of a text of the source. -/
def str (s : String) : Bytes := s.toUTF8.toList

/-- `Candidate` (resolve.rs:34), with the fields that a plan depends on. -/
structure Candidate where
  repository : Bytes
  name : Bytes
  version : Bytes
  provides : List Bytes
  depends : List Bytes
  sha256 : Digest

def ENTRY_WORLD : Nat := 1
def ENTRY_IMAGE : Nat := 2
def ENTRY_DEPENDENCY : Nat := 4
def ENTRY_REVOKED : Nat := 8

/-- The most packages of a group. -/
def GROUP_MAX : Nat := 4

/-- `Installed` (output.rs:39). -/
structure Installed where
  name : Bytes
  version : Bytes
  sha256 : Digest
  flags : Nat
  repository : Bytes
  provides : List Bytes

def Installed.has (i : Installed) (flag : Nat) : Bool := i.flags &&& flag != 0

/-- `Fault` (resolve.rs:87). -/
inductive Fault where
  | noName (name : Bytes)
  | ambiguous (name : Bytes) (providers : List Bytes)
  | needs (package missing : Bytes)
  | cycle (path : List Bytes)
  | tooMany (name : Bytes)
  | noRepository (name : Bytes)

/-- `line` (resolve.rs:106). -/
def Fault.line : Fault → Bytes
  | .noName name => str "pkg: " ++ name ++ str ": no repository has it"
  | .ambiguous name providers =>
    str "pkg: " ++ name ++ str ": provided by " ++ (str ", ").intercalate providers ++ str "; name one"
  | .needs package missing => str "pkg: " ++ package ++ str ": needs " ++ missing ++ str ", which no repository has"
  | .cycle path =>
    str "pkg: " ++ path.headD [] ++ str ": dependency cycle " ++ (str " -> ").intercalate path
  | .tooMany name =>
    str "pkg: " ++ name ++
      str ": needs more than 4 new packages at once; install some of its dependencies first"
  | .noRepository name => str "pkg: " ++ name ++ str ": no such repository"

/-- `split_once` at the byte `c`; `rsplit_once` is that of the reversed bytes. -/
def splitOnce (c : UInt8) (b : Bytes) : Option (Bytes × Bytes) :=
  match b.span (· != c) with
  | (_, []) => none
  | (a, _ :: rest) => some (a, rest)

/-- `short_version` (meta.rs:61). -/
def shortVersion (v : Bytes) : Bytes :=
  if v.length = 40 ∧ v.all (fun c => (48 ≤ c && c ≤ 57) || (65 ≤ c && c ≤ 70) || (97 ≤ c && c ≤ 102)) then v.take 8 else v

/-- `short` (output.rs:30). -/
def short (version : Bytes) : Bytes :=
  match splitOnce 45 version.reverse with
  | some (release, v) => shortVersion v.reverse ++ str "-" ++ release.reverse
  | none => shortVersion version

section
variable (pool : List Candidate) (installed : List Installed)

/-- `closed` (resolve.rs:159) and `closed_at` (resolve.rs:376): the place of the installed package. -/
def closed (name : Bytes) : Option (Fin installed.length) :=
  ((finRange installed.length).find? fun i => installed[i].name == name).or
    ((finRange installed.length).find? fun i => installed[i].provides.contains name)

/-- The repositories that are asked, in order (resolve.rs:173). -/
def repositories (only : Option Bytes) : List Bytes :=
  pool.foldl (fun rs c => if only.all (c.repository == ·) && !rs.contains c.repository then rs ++ [c.repository] else rs) []

/-- What one repository answers (resolve.rs:181). -/
def findIn (name repository : Bytes) : Except Fault (Option (Fin pool.length)) :=
  match (finRange pool.length).find? fun i => pool[i].repository == repository && pool[i].name == name with
  | some i => .ok (some i)
  | none =>
    match (finRange pool.length).filter fun i =>
      pool[i].repository == repository && pool[i].provides.contains name with
    | [] => .ok none
    | [one] => .ok (some one)
    | providers => .error (.ambiguous name (providers.map fun i => pool[i].name))

def findAmong (name : Bytes) : List Bytes → Except Fault (Fin pool.length)
  | [] => .error (.noName name)
  | r :: rs =>
    match findIn pool name r with
    | .ok none => findAmong name rs
    | .ok (some i) => .ok i
    | .error e => .error e

/-- `find` (resolve.rs:172). -/
def find (name : Bytes) (only : Option Bytes) : Except Fault (Fin pool.length) :=
  findAmong pool name (repositories pool only)

/-- The items and the notes of `Walk`; the stack is the argument of `visit`. -/
structure Walk where
  items : List (Fin pool.length)
  notes : List Bytes

/-- `note` (resolve.rs:254). -/
def note (w : Walk pool) (have_ : Installed) : Walk pool :=
  if have_.has ENTRY_IMAGE then w
  else
    match pool.find? fun c => c.name == have_.name && c.repository == have_.repository with
    | none => w
    | some c =>
      if c.sha256 == have_.sha256 then w
      else { w with notes := w.notes ++ [have_.name ++ str ": installed " ++ short have_.version ++
        str ", the index has " ++ short c.version ++ str "; pkg upgrade replaces it"] }

/-- The loop over the dependencies (resolve.rs:229), with `go` for the visit of a record. -/
def visitAll (go : Fin pool.length → Walk pool → Option (Except Fault (Walk pool))) (package : Bytes) :
    List Bytes → Walk pool → Option (Except Fault (Walk pool))
  | [], w => some (.ok w)
  | dep :: deps, w =>
    match closed installed dep with
    | some i => visitAll go package deps (note pool w installed[i])
    | none =>
      match find pool dep none with
      | .error (.noName _) => some (.error (.needs package dep))
      | .error e => some (.error e)
      | .ok next =>
        match go next w with
        | some (.ok w) => visitAll go package deps w
        | r => r

/-- `visit` (resolve.rs:214), with fuel for its depth. -/
def visit : Nat → List (Fin pool.length) → Fin pool.length → Walk pool → Option (Except Fault (Walk pool))
  | 0, _, _, _ => none
  | fuel + 1, stack, at_, w =>
    if at_ ∈ w.items then some (.ok w)
    else
      match stack.findIdx? fun s => pool[s].name == pool[at_].name with
      | some start => some (.error (.cycle ((stack.drop start).map (fun s => pool[s].name) ++ [pool[at_].name])))
      | none =>
        match visitAll pool installed (visit fuel (stack ++ [at_])) pool[at_].name pool[at_].depends w with
        | some (.ok w) => some (.ok { w with items := w.items ++ [at_] })
        | r => r

/-- The walk of a request, deep enough. -/
def walk (at_ : Fin pool.length) : Option (Except Fault (Walk pool)) := visit pool installed (pool.length + 1) [] at_ ⟨[], []⟩

/-- `Item` (resolve.rs:133). -/
structure Item where
  candidate : Fin pool.length
  world : Bool

/-- The items of a walk, the last one with the mark. -/
def marked (items : List (Fin pool.length)) (world : Bool) : List (Item pool) :=
  items.dropLast.map (⟨·, false⟩) ++ items.getLast?.toList.map (⟨·, world⟩)

/-- `Outcome` (resolve.rs:141). -/
inductive Outcome where
  | present (name version : Bytes) (image : Bool)
  | promote (name version : Bytes)
  | install (items : List (Item pool)) (notes : List Bytes)

/-- The repository and the name of a request. -/
def request (r : Bytes) : Option Bytes × Bytes :=
  match splitOnce 47 r with
  | some (repository, name) => (some repository, name)
  | none => (none, r)

/-- `install` (resolve.rs:319); no answer is a walk that has not ended. -/
def install (r : Bytes) : Option (Except Fault (Outcome pool)) :=
  let (only, name) := request r
  if only.any fun repository => !pool.any (·.repository == repository) then
    some (.error (.noRepository (only.getD [])))
  else
    match closed installed name with
    | some i =>
      let have_ := installed[i]
      some (.ok (if have_.has ENTRY_IMAGE then .present have_.name (short have_.version) true
        else if have_.has ENTRY_DEPENDENCY then .promote have_.name (short have_.version)
        else .present have_.name (short have_.version) false))
    | none =>
      match find pool name only with
      | .error e => some (.error e)
      | .ok at_ =>
        match walk pool installed at_ with
        | some (.ok w) =>
          if GROUP_MAX < w.items.length then some (.error (.tooMany name))
          else some (.ok (.install (marked pool w.items true) w.notes))
        | some (.error e) => some (.error e)
        | none => none

/-! ## Upgrades -/

/-- `Replacement` (resolve.rs:513). -/
structure Replacement where
  installed : Fin installed.length
  items : List (Item pool)

/-- `UpgradePlan` (resolve.rs:520). -/
structure UpgradePlan where
  replacements : List (Replacement pool installed)
  kept : List Bytes
  refused : List Bytes

/-- One name of the command (resolve.rs:534): the targets and the refusals. -/
def target (acc : List (Fin installed.length) × List Bytes) (name : Bytes) : List (Fin installed.length) × List Bytes :=
  match closed installed name with
  | none => (acc.1, acc.2 ++ [str "pkg: " ++ name ++ str ": not installed"])
  | some i =>
    if installed[i].has ENTRY_IMAGE then (acc.1, acc.2 ++ [str "pkg: " ++ installed[i].name ++ str ": part of the image"])
    else if i ∈ acc.1 then acc
    else (acc.1 ++ [i], acc.2)

def targets (names : List Bytes) : List (Fin installed.length) × List Bytes :=
  names.foldl (target installed)
    (if names.isEmpty then (finRange installed.length).filter fun i => !installed[i].has ENTRY_IMAGE else [], [])

/-- One target (resolve.rs:548). -/
def replace (plan : UpgradePlan pool installed) (i : Fin installed.length) : Option (UpgradePlan pool installed) :=
  let have_ := installed[i]
  match (finRange pool.length).find? fun c => pool[c].name == have_.name && pool[c].repository == have_.repository with
  | none =>
    some { plan with
      kept := plan.kept ++ [have_.name ++ str ": not in the index of " ++ have_.repository ++ str ", kept"] }
  | some found =>
    if pool[found].sha256 = have_.sha256 then
      if have_.has ENTRY_REVOKED then
        some { plan with
          refused := plan.refused ++
            [str "pkg: " ++ have_.name ++ str ": signed by a revoked key and the index has no other build"] }
      else some plan
    else
      match walk pool installed found with
      | none => none
      | some (.error e) => some { plan with refused := plan.refused ++ [e.line] }
      | some (.ok w) =>
        if GROUP_MAX < w.items.length then
          some { plan with refused := plan.refused ++ [(Fault.tooMany have_.name).line] }
        else
          some { plan with
            replacements := plan.replacements ++ [⟨i, marked pool w.items (have_.has ENTRY_WORLD)⟩] }

/-- `upgrade` (resolve.rs:531); no answer is a walk that has not ended. -/
def upgrade (names : List Bytes) : Option (UpgradePlan pool installed) :=
  (targets installed names).1.foldlM (replace pool installed) ⟨[], [], (targets installed names).2⟩

end

section
variable {pool : List Candidate} {installed : List Installed} {items : List (Fin pool.length)} {root : Fin pool.length}

/-! ## Answers -/

/-- The record names or provides it. -/
def Candidate.Answers (c : Candidate) (name : Bytes) : Prop := c.name = name ∨ name ∈ c.provides

/-- Without a repository in the request, every one of the pool is asked. -/
theorem repository_mem {c : Candidate} (hc : c ∈ pool) : c.repository ∈ repositories pool none := by
  have key : ∀ (l : List Candidate) (rs : List Bytes), (c.repository ∈ rs ∨ c ∈ l) →
      c.repository ∈ l.foldl (fun rs c => if Option.none.all (c.repository == ·) && !rs.contains c.repository
        then rs ++ [c.repository] else rs) rs := by
    intro l
    induction l with
    | nil => simp
    | cons a l ih =>
      refine fun rs h => ih _ ?_
      by_cases ha : a.repository ∈ rs
      · rcases h with h | h
        · simp [ha, h]
        · rcases mem_cons.1 h with rfl | h
          · simp [ha]
          · exact .inr h
      · rcases h with h | h
        · simp [ha, h]
        · rcases mem_cons.1 h with rfl | h
          · simp [ha]
          · exact .inr h
  exact key pool [] (.inr hc)

/-- None of the repositories has a record that answers the name. -/
def Unanswered (pool : List Candidate) (rs : List Bytes) (name : Bytes) : Prop :=
  ∀ c ∈ pool, c.repository ∈ rs → ¬ c.Answers name

/-- What a repository answers: nothing when it has no record for the name, or one of its records for it. -/
theorem findIn_cases (pool : List Candidate) (name r : Bytes) :
    (findIn pool name r = .ok none ∧ Unanswered pool [r] name) ∨
    (∃ i, findIn pool name r = .ok (some i) ∧ pool[i].repository = r ∧ pool[i].Answers name) ∨
    ∃ n p, findIn pool name r = .error (.ambiguous n p) := by
  unfold findIn
  split
  · next i hi =>
    have := find?_some hi
    simp only [Bool.and_eq_true, beq_iff_eq] at this
    exact .inr (.inl ⟨i, rfl, this.1, .inl this.2⟩)
  next hname =>
  split
  · next hprov =>
    refine .inl ⟨rfl, fun c hc hr ha => ?_⟩
    rw [mem_singleton] at hr
    obtain ⟨i, hi, rfl⟩ := mem_iff_getElem.1 hc
    rcases ha with ha | ha
    · have := find?_eq_none.1 hname ⟨i, hi⟩ (mem_finRange _)
      simp [hr, ha] at this
    · have := filter_eq_nil_iff.1 hprov ⟨i, hi⟩ (mem_finRange _)
      simp [hr, ha] at this
  · next i hone =>
    have := (mem_filter.1 (hone ▸ mem_singleton_self i)).2
    simp only [Bool.and_eq_true, beq_iff_eq, contains_iff_mem] at this
    exact .inr (.inl ⟨i, rfl, this.1, .inr this.2⟩)
  · exact .inr (.inr ⟨_, _, rfl⟩)

/-- **An answer** comes from the first repository that has one. -/
theorem findAmong_cases (name : Bytes) (rs : List Bytes) :
    (∃ i, findAmong pool name rs = .ok i ∧ pool[i].Answers name ∧
      ∃ before after, rs = before ++ pool[i].repository :: after ∧ Unanswered pool before name) ∨
    (findAmong pool name rs = .error (.noName name) ∧ Unanswered pool rs name) ∨
    ∃ n p, findAmong pool name rs = .error (.ambiguous n p) := by
  induction rs with
  | nil => exact .inr (.inl ⟨rfl, fun c _ hr => by cases hr⟩)
  | cons r rs ih =>
    unfold findAmong
    obtain ⟨hfind, hno⟩ | ⟨i, hfind, hr, ha⟩ | ⟨n, p, hfind⟩ := findIn_cases pool name r
    · rw [hfind]
      have hcons : ∀ rs', Unanswered pool rs' name → Unanswered pool (r :: rs') name := fun rs' h c hc hr =>
        (mem_cons.1 hr).elim (fun e => hno c hc (mem_singleton.2 e)) (h c hc)
      refine ih.imp ?_ (Or.imp_left fun h => ⟨h.1, hcons rs h.2⟩)
      rintro ⟨i, hok, ha, before, after, hrs, hbefore⟩
      exact ⟨i, hok, ha, r :: before, after, by rw [hrs]; rfl, hcons before hbefore⟩
    · rw [hfind]
      exact .inl ⟨i, rfl, ha, [], rs, by rw [hr]; rfl, fun c _ hr => by cases hr⟩
    · rw [hfind]
      exact .inr (.inr ⟨n, p, rfl⟩)

/-! ## The walk -/

/-- A dependency of `i` that no installed package closes is answered by `j`. -/
def Dep (pool : List Candidate) (installed : List Installed) (i j : Fin pool.length) : Prop :=
  ∃ d ∈ pool[i].depends, closed installed d = none ∧ find pool d none = .ok j

/-- Each record once, and after the answers to its dependencies. -/
structure Ordered (pool : List Candidate) (installed : List Installed) (items : List (Fin pool.length)) : Prop where
  nodup : items.Nodup
  deps : ∀ before i after, items = before ++ i :: after → ∀ d ∈ pool[i].depends,
    closed installed d ≠ none ∨ ∃ j ∈ before, find pool d none = .ok j

theorem Ordered.append (h : Ordered pool installed items) {i : Fin pool.length}
    (hi : i ∉ items)
    (hd : ∀ d ∈ pool[i].depends, closed installed d ≠ none ∨ ∃ j ∈ items, find pool d none = .ok j) :
    Ordered pool installed (items ++ [i]) := by
  refine ⟨by simpa [nodup_append] using ⟨h.nodup, fun a ha => fun e => hi (e ▸ ha)⟩, ?_⟩
  exact Run.places_append h.deps hd

/-- What a visit of `at_` adds: records reached from it whose names are not on the stack, itself last. -/
structure Visited (installed : List Installed) (stack : List (Fin pool.length)) (at_ : Fin pool.length)
    (items items' : List (Fin pool.length)) : Prop where
  ordered : Ordered pool installed items'
  mem : at_ ∈ items'
  more : ∃ more, items' = items ++ more ∧ (at_ ∉ items → ∃ init, more = init ++ [at_] ∧
      ∀ i ∈ init, pool[at_].name ≠ pool[i].name) ∧
    ∀ i ∈ more, ReflTransGen (Dep pool installed) at_ i ∧ ∀ s ∈ stack, pool[s].name ≠ pool[i].name

theorem note_items (w : Walk pool) (i : Installed) : (note pool w i).items = w.items := by
  unfold note
  split_ifs
  · rfl
  · split
    · rfl
    · split_ifs <;> rfl

/-- What a fault of a walk says: the names of a chain of dependencies that comes back to a name, or a
dependency that nothing answers. -/
def Faulty (pool : List Candidate) (installed : List Installed) : Fault → Prop
  | .cycle path => ∃ a l b, ((a :: l) ++ [b]).IsChain (Dep pool installed) ∧ pool[a].name = pool[b].name ∧
      path = ((a :: l) ++ [b]).map fun i => pool[i].name
  | .needs package missing => (∃ c ∈ pool, c.name = package ∧ missing ∈ c.depends) ∧ closed installed missing = none ∧
      ∀ c ∈ pool, ¬ c.Answers missing
  | _ => True

/-- A walk that ends: `P` of what it gives, or a fault. -/
def Ends (installed : List Installed) (P : Walk pool → Prop) : Option (Except Fault (Walk pool)) → Prop
  | some (.ok w) => P w
  | some (.error e) => Faulty pool installed e
  | none => False

/-- The loop over the dependencies of `at_`, when the visits of records do what they should. -/
theorem visitAll_ends {go : Fin pool.length → Walk pool → Option (Except Fault (Walk pool))}
    {stack : List (Fin pool.length)} {at_ : Fin pool.length}
    (hgo : ∀ next w, Dep pool installed at_ next → Ordered pool installed w.items →
      Ends installed (fun w' => Visited installed stack next w.items w'.items) (go next w)) :
    ∀ (deps : List Bytes) (w : Walk pool), (∀ d ∈ deps, d ∈ pool[at_].depends) → Ordered pool installed w.items →
      Ends installed (fun w' => Ordered pool installed w'.items ∧
        (∀ d ∈ deps, closed installed d ≠ none ∨ ∃ j ∈ w'.items, find pool d none = .ok j) ∧
        ∃ more, w'.items = w.items ++ more ∧ ∀ i ∈ more, ReflTransGen (Dep pool installed) at_ i ∧
          ∀ s ∈ stack, pool[s].name ≠ pool[i].name) (visitAll pool installed go pool[at_].name deps w)
  | [], w, _, hw => ⟨hw, by simp, [], by simp, by simp⟩
  | dep :: deps, w, hsub, hw => by
    obtain ⟨hdep, hsub⟩ := forall_mem_cons.1 hsub
    unfold visitAll
    cases hclosed : closed installed dep with
    | some i =>
      have hrest := visitAll_ends hgo deps (note pool w installed[i]) hsub (by rwa [note_items])
      rw [note_items] at hrest
      dsimp only
      generalize visitAll pool installed go pool[at_].name deps (note pool w installed[i]) = r at hrest
      rcases r with _ | e | w'
      · exact hrest
      · exact hrest
      · exact ⟨hrest.1, forall_mem_cons.2 ⟨.inl (by simp [hclosed]), hrest.2.1⟩, hrest.2.2⟩
    | none =>
      obtain ⟨next, hnext, -⟩ | ⟨hno, hnone⟩ | ⟨n, p, hamb⟩ := findAmong_cases dep (repositories pool none)
      · have hd : Dep pool installed at_ next := ⟨dep, hdep, hclosed, hnext⟩
        have hvisit := hgo next w hd hw
        simp only [find, hnext]
        rcases hr : go next w with _ | e | w₁
        · exact absurd hvisit (by rw [hr]; exact id)
        · rw [hr] at hvisit
          exact hvisit
        · rw [hr] at hvisit
          obtain ⟨ho, hmem, more, hmore, -, hreach⟩ := hvisit
          have hrest := visitAll_ends hgo deps w₁ hsub ho
          dsimp only
          generalize visitAll pool installed go pool[at_].name deps w₁ = r at hrest
          rcases r with _ | e | w'
          · exact hrest
          · exact hrest
          · obtain ⟨h1, h2, more', hmore', hreach'⟩ := hrest
            refine ⟨h1, forall_mem_cons.2 ⟨.inr ⟨next, ?_, hnext⟩, h2⟩, more ++ more', ?_, fun i him => ?_⟩
            · rw [hmore']
              exact mem_append_left _ hmem
            · rw [hmore', hmore, append_assoc]
            · rcases mem_append.1 him with him | him
              · exact ⟨.head hd (hreach i him).1, (hreach i him).2⟩
              · exact hreach' i him
      · simp only [find, hno]
        exact ⟨⟨pool[at_], getElem_mem _, rfl, hdep⟩, hclosed, fun c hc => hnone c hc (repository_mem hc)⟩
      · simp only [find, hamb]
        trivial

/-- **A visit** ends when there is fuel for a stack of all the records, which has each name once. -/
theorem visit_ends (installed : List Installed) (fuel : Nat) :
    ∀ (stack : List (Fin pool.length)) (at_ : Fin pool.length) (w : Walk pool), stack.Nodup →
      pool.length < stack.length + fuel → (stack ++ [at_]).IsChain (Dep pool installed) →
      Ordered pool installed w.items →
      Ends installed (fun w' => Visited installed stack at_ w.items w'.items) (visit pool installed fuel stack at_ w) := by
  induction fuel with
  | zero =>
    intro stack at_ w hnd hlen
    have := hnd.length_le_card
    rw [Fintype.card_fin] at this
    omega
  | succ fuel ih =>
    intro stack at_ w hnd hlen hchain hw
    unfold visit
    split_ifs with hmem
    · exact ⟨hw, hmem, [], by simp, fun hn => absurd hmem hn, by simp⟩
    split
    · next start hstart =>
      obtain ⟨hlt, hname, -⟩ := findIdx?_eq_some_iff_getElem.1 hstart
      refine ⟨stack[start], stack.drop (start + 1), at_, ?_, by simpa using hname, ?_⟩
      · have := hchain.drop start
        rwa [drop_append_of_le_length (le_of_lt hlt), drop_eq_getElem_cons hlt] at this
      · rw [map_append, ← drop_eq_getElem_cons hlt]
        rfl
    next hstack =>
    have hother : ∀ s ∈ stack, pool[s].name ≠ pool[at_].name := fun s hs heq =>
      absurd (findIdx?_eq_none_iff.1 hstack s hs) (by rw [heq]; simp)
    have hnd' : (stack ++ [at_]).Nodup := by
      simpa [nodup_append] using ⟨hnd, fun a ha e => hother a ha (by rw [e])⟩
    have hall := visitAll_ends (fun next w hd hw => ih (stack ++ [at_]) next w hnd' (by simp; omega)
      (isChain_append.2 ⟨hchain, by simp, by simpa using hd⟩) hw) pool[at_].depends w (fun d hd => hd) hw
    generalize visitAll pool installed (visit pool installed fuel (stack ++ [at_])) pool[at_].name pool[at_].depends w =
      r at hall
    rcases r with _ | e | w'
    · exact hall
    · exact hall
    obtain ⟨ho, hdeps, more, hmore, hreach⟩ := hall
    have hself : ∀ i ∈ more, pool[at_].name ≠ pool[i].name := fun i hi => (hreach i hi).2 at_ (by simp)
    have hat : at_ ∉ w'.items := by
      rw [hmore, mem_append]
      rintro (hi | hi)
      · exact hmem hi
      · exact hself at_ hi rfl
    refine ⟨ho.append hat hdeps, by simp, more ++ [at_], ?_, fun _ => ⟨more, rfl, hself⟩, fun i hi => ?_⟩
    · simp [hmore]
    · rcases mem_append.1 hi with hi | hi
      · exact ⟨(hreach i hi).1, fun s hs => (hreach i hi).2 s (mem_append_left _ hs)⟩
      · rw [mem_singleton.1 hi]
        exact ⟨.refl, hother⟩

/-- What a walk from `root` gives. -/
structure Planned (pool : List Candidate) (installed : List Installed) (root : Fin pool.length)
    (items : List (Fin pool.length)) : Prop where
  ordered : Ordered pool installed items
  reached : ∀ i ∈ items, ReflTransGen (Dep pool installed) root i
  last : ∃ init, items = init ++ [root] ∧ ∀ i ∈ init, pool[root].name ≠ pool[i].name

theorem walk_ends (installed : List Installed) (root : Fin pool.length) :
    Ends installed (fun w => Planned pool installed root w.items) (walk pool installed root) := by
  have hvisit := visit_ends installed (pool.length + 1) [] root ⟨[], []⟩ nodup_nil (by simp)
    (isChain_singleton _) ⟨nodup_nil, by simp⟩
  unfold walk
  generalize visit pool installed (pool.length + 1) [] root ⟨[], []⟩ = r at hvisit
  rcases r with _ | e | w
  · exact hvisit
  · exact hvisit
  · obtain ⟨ho, -, more, hmore, hlast, hreach⟩ := hvisit
    rw [nil_append] at hmore
    exact ⟨ho, fun i hi => (hreach i (hmore ▸ hi)).1, hmore ▸ hlast (by simp)⟩

/-! ## Install -/

theorem marked_append (init : List (Fin pool.length)) (root : Fin pool.length) (world : Bool) :
    marked pool (init ++ [root]) world = init.map (⟨·, false⟩) ++ [⟨root, world⟩] := by
  simp [marked]

theorem candidates_marked (h : Planned pool installed root items)
    (world : Bool) : (marked pool items world).map Item.candidate = items := by
  obtain ⟨init, rfl, -⟩ := h.last
  rw [marked_append, map_append, List.map_map]
  exact congrArg (· ++ [root]) (map_id init)

/-- An install ends: with a fault of the walk or of the request, or with the items of a walk if it has any. -/
theorem install_cases (pool : List Candidate) (installed : List Installed) (r : Bytes) :
    (∃ e, install pool installed r = some (.error e) ∧ Faulty pool installed e) ∨
    ∃ o, install pool installed r = some (.ok o) ∧ ∀ items notes, o = .install items notes →
      ∃ root walked, find pool (request r).2 (request r).1 = .ok root ∧ Planned pool installed root walked ∧
        walked.length ≤ GROUP_MAX ∧ items = marked pool walked true := by
  unfold install
  dsimp only
  split_ifs
  · exact .inl ⟨_, rfl, trivial⟩
  split
  · refine .inr ⟨_, rfl, fun items notes h => ?_⟩
    split_ifs at h
  obtain ⟨root, hroot, -⟩ | ⟨hno, -⟩ | ⟨n, p, hamb⟩ := findAmong_cases (request r).2 (repositories pool (request r).1)
  · have hwalk := walk_ends installed root
    rw [show find pool (request r).2 (request r).1 = .ok root from hroot]
    dsimp only
    generalize walk pool installed root = walked at hwalk
    rcases walked with _ | e | w
    · exact hwalk.elim
    · exact .inl ⟨e, rfl, hwalk⟩
    · dsimp only
      split_ifs with hlen
      · exact .inl ⟨_, rfl, trivial⟩
      · refine .inr ⟨_, rfl, fun items notes h => ?_⟩
        cases h
        exact ⟨root, w.items, rfl, hwalk, Nat.not_lt.1 hlen, rfl⟩
  · rw [show find pool (request r).2 (request r).1 = _ from hno]
    exact .inl ⟨_, rfl, trivial⟩
  · rw [show find pool (request r).2 (request r).1 = _ from hamb]
    exact .inl ⟨_, rfl, trivial⟩

theorem install_items {r : Bytes} {items : List (Item pool)} {notes : List Bytes}
    (h : install pool installed r = some (.ok (.install items notes))) :
    ∃ root walked, find pool (request r).2 (request r).1 = .ok root ∧ Planned pool installed root walked ∧
      walked.length ≤ GROUP_MAX ∧ items = marked pool walked true := by
  obtain ⟨e, he, -⟩ | ⟨o, ho, hitems⟩ := install_cases pool installed r
  · cases he.symm.trans h
  · cases ho.symm.trans h
    exact hitems _ _ rfl

theorem install_error {r : Bytes} {e : Fault} (h : install pool installed r = some (.error e)) : Faulty pool installed e := by
  obtain ⟨e', he, hfault⟩ | ⟨o, ho, -⟩ := install_cases pool installed r
  · cases he.symm.trans h
    exact hfault
  · cases ho.symm.trans h

/-- **Install plans.** -/
theorem install_plans (pool : List Candidate) (installed : List Installed) (r : Bytes) :
    install pool installed r ≠ none ∧
    (∀ items notes, install pool installed r = some (.ok (.install items notes)) →
      items.length ≤ GROUP_MAX ∧ (items.map Item.candidate).Nodup ∧
      (∃ init last, items = init ++ [last] ∧ last.world = true ∧ (∀ x ∈ init, x.world = false) ∧
        find pool (request r).2 (request r).1 = .ok last.candidate ∧
        ∀ x ∈ init, TransGen (Dep pool installed) last.candidate x.candidate) ∧
      ∀ before x after, items = before ++ x :: after → ∀ d ∈ pool[x.candidate].depends,
        closed installed d ≠ none ∨ ∃ y ∈ before, find pool d none = .ok y.candidate) ∧
    (∀ path, install pool installed r = some (.error (.cycle path)) →
      ∃ a l b, ((a :: l) ++ [b]).IsChain (Dep pool installed) ∧ pool[a].name = pool[b].name ∧
        path = ((a :: l) ++ [b]).map fun i => pool[i].name) ∧
    (∀ package missing, install pool installed r = some (.error (.needs package missing)) →
      (∃ c ∈ pool, c.name = package ∧ missing ∈ c.depends) ∧ closed installed missing = none ∧
        ∀ c ∈ pool, ¬ c.Answers missing) ∧
    ∀ name only i, find pool name only = .ok i → pool[i].Answers name ∧
      ∃ before after, repositories pool only = before ++ pool[i].repository :: after ∧
        ∀ c ∈ pool, c.repository ∈ before → ¬ c.Answers name := by
  refine ⟨fun h => ?_, fun items notes h => ?_, fun path h => (install_error h : Faulty _ _ (.cycle path)),
    fun package missing h => (install_error h : Faulty _ _ (.needs package missing)), fun name only i h => ?_⟩
  · obtain ⟨e, he, -⟩ | ⟨o, ho, -⟩ := install_cases pool installed r
    · cases he.symm.trans h
    · cases ho.symm.trans h
  swap
  · obtain ⟨j, hok, hj⟩ | ⟨hno, -⟩ | ⟨n, p, hamb⟩ := findAmong_cases name (repositories pool only)
    · cases hok.symm.trans h
      exact hj
    · cases hno.symm.trans h
    · cases hamb.symm.trans h
  obtain ⟨root, walked, hroot, hplan, hlen, rfl⟩ := install_items h
  have hcand := candidates_marked hplan true
  refine ⟨?_, by rw [hcand]; exact hplan.ordered.nodup, ?_, ?_⟩
  · rw [← length_map, hcand]
    exact hlen
  · obtain ⟨init, rfl, hname⟩ := hplan.last
    refine ⟨init.map (⟨·, false⟩), ⟨root, true⟩, marked_append .., rfl, by simp, hroot, fun x hx => ?_⟩
    obtain ⟨i, hi, rfl⟩ := mem_map.1 hx
    have hreach := hplan.reached i (mem_append_left _ hi)
    exact (reflTransGen_iff_eq_or_transGen.1 hreach).resolve_left fun e => hname i hi (by rw [e])
  · intro before x after hsplit d hd
    have hitems : walked = before.map Item.candidate ++ x.candidate :: after.map Item.candidate := by
      rw [← hcand, hsplit, map_append, map_cons]
    refine (hplan.ordered.deps _ _ _ hitems d hd).imp_right ?_
    rintro ⟨j, hj, hfind⟩
    obtain ⟨y, hy, rfl⟩ := mem_map.1 hj
    exact ⟨y, hy, hfind⟩

/-! ## One name in a group -/

/-- A plan has what its root reaches. -/
theorem Planned.mem_iff (h : Planned pool installed root items) {k : Fin pool.length} :
    k ∈ items ↔ ReflTransGen (Dep pool installed) root k := by
  refine ⟨h.reached k, fun hreach => ?_⟩
  induction hreach with
  | refl =>
    obtain ⟨init, rfl, -⟩ := h.last
    simp
  | tail _ hdep ih =>
    obtain ⟨before, after, hsplit⟩ := append_of_mem ih
    obtain ⟨d, hd, hclosed, hfind⟩ := hdep
    rcases h.ordered.deps before _ after hsplit d hd with hno | ⟨j, hj, hfind'⟩
    · exact absurd hclosed hno
    · cases hfind.symm.trans hfind'
      exact hsplit ▸ mem_append_left _ hj

/-- No two records that the root reaches have one name. -/
def OneOfAName (pool : List Candidate) (installed : List Installed) (root : Fin pool.length) : Prop :=
  ∀ i j, ReflTransGen (Dep pool installed) root i → ReflTransGen (Dep pool installed) root j →
    pool[i].name = pool[j].name → i = j

/-- The check of `Group::begin` (receipts.rs:239) for a package of a plan, with those before it staged. -/
def Repeats (pool : List Candidate) (items : List (Item pool)) : Prop :=
  ∃ before x after, items = before ++ x :: after ∧ ∃ g : Plans.Group,
    (g.staged.map fun s => s.1.record.nameBytes) = before.map (fun y => pool[y.candidate].name) ∧
    g.staged.any (fun s => s.1.record.nameBytes == pool[x.candidate].name) = true

theorem Planned.names_iff (h : Planned pool installed root items) (world : Bool) :
    ((marked pool items world).map fun x => pool[x.candidate].name).Nodup ∧ ¬ Repeats pool (marked pool items world) ↔
      OneOfAName pool installed root := by
  have hnames : ((marked pool items world).map fun x => pool[x.candidate].name) = items.map fun i => pool[i].name := by
    conv_rhs => rw [← candidates_marked h world, List.map_map]
    rfl
  have hone : (items.map fun i => pool[i].name).Nodup ↔ OneOfAName pool installed root := by
    rw [nodup_map_iff_inj_on h.ordered.nodup]
    simp only [h.mem_iff]
    exact ⟨fun hinj i j hi hj => hinj i hi j hj, fun hinj i hi j hj => hinj i j hi hj⟩
  rw [← hone, hnames]
  refine ⟨And.left, fun hnodup => ⟨hnodup, ?_⟩⟩
  rintro ⟨before, x, after, hsplit, g, hstaged, hany⟩
  rw [← hnames, hsplit, map_append, nodup_append] at hnodup
  obtain ⟨s, hs, hname⟩ := any_eq_true.1 hany
  have hmem : pool[x.candidate].name ∈ before.map fun y => pool[y.candidate].name := by
    rw [← hstaged, ← beq_iff_eq.1 hname]
    exact mem_map_of_mem hs
  exact hnodup.2.2 _ hmem _ mem_cons_self rfl

/-! ## Upgrades -/

/-- The record of an installed package (resolve.rs:550). -/
def record (pool : List Candidate) (have_ : Installed) : Option (Fin pool.length) :=
  (finRange pool.length).find? fun c => pool[c].name == have_.name && pool[c].repository == have_.repository

/-- What a replacement is. -/
structure Replaced (r : Replacement pool installed) (root : Fin pool.length) (items : List (Fin pool.length)) : Prop where
  planned : Planned pool installed root items
  items_eq : r.items = marked pool items (installed[r.installed].has ENTRY_WORLD)
  record : record pool installed[r.installed] = some root
  name : pool[root].name = installed[r.installed].name
  repository : pool[root].repository = installed[r.installed].repository

theorem Replaced.mem_iff {r : Replacement pool installed} (h : Replaced r root items) {k : Fin pool.length} :
    k ∈ r.items.map Item.candidate ↔ ReflTransGen (Dep pool installed) root k := by
  rw [h.items_eq, candidates_marked h.planned]
  exact h.planned.mem_iff

theorem replace_spec (plan : UpgradePlan pool installed) (i : Fin installed.length) :
    ∃ plan', replace pool installed plan i = some plan' ∧ (plan'.replacements = plan.replacements ∨
      ∃ r root items, plan'.replacements = plan.replacements ++ [r] ∧ r.installed = i ∧ Replaced r root items) := by
  unfold replace
  dsimp only
  split
  · exact ⟨_, rfl, .inl rfl⟩
  next root hroot =>
  have hfound := find?_some hroot
  simp only [Bool.and_eq_true, beq_iff_eq] at hfound
  split_ifs with hsha hrevoked
  · exact ⟨_, rfl, .inl rfl⟩
  · exact ⟨_, rfl, .inl rfl⟩
  have hwalk := walk_ends installed root
  generalize walk pool installed root = walked at hwalk
  rcases walked with _ | e | w
  · exact hwalk.elim
  · exact ⟨_, rfl, .inl rfl⟩
  · dsimp only
    split_ifs
    · exact ⟨_, rfl, .inl rfl⟩
    · exact ⟨_, rfl, .inr ⟨_, root, w.items, rfl, rfl, hwalk, rfl, hroot, hfound.1, hfound.2⟩⟩

theorem replaced_of_foldlM (pool : List Candidate) (ts : List (Fin installed.length)) :
    ∀ (plan : UpgradePlan pool installed) (done : List (Fin installed.length)),
      (plan.replacements.map Replacement.installed).Sublist done →
      (∀ r ∈ plan.replacements, ∃ root items, Replaced r root items) →
      ∃ plan', ts.foldlM (replace pool installed) plan = some plan' ∧
        (plan'.replacements.map Replacement.installed).Sublist (done ++ ts) ∧
        ∀ r ∈ plan'.replacements, ∃ root items, Replaced r root items := by
  induction ts with
  | nil => exact fun plan done hsub hr => ⟨plan, rfl, by simpa using hsub, hr⟩
  | cons t ts ih =>
    intro plan done hsub hr
    obtain ⟨plan₁, hstep, hcase⟩ := replace_spec plan t
    have hnext : (plan₁.replacements.map Replacement.installed).Sublist (done ++ [t]) ∧
        ∀ r ∈ plan₁.replacements, ∃ root items, Replaced r root items := by
      rcases hcase with hsame | ⟨r, root, items, hmore, rfl, hreplaced⟩
      · rw [hsame]
        exact ⟨hsub.trans (sublist_append_left ..), hr⟩
      · rw [hmore, map_append]
        refine ⟨hsub.append (List.Sublist.refl _), fun q hq => ?_⟩
        rcases mem_append.1 hq with hq | hq
        · exact hr q hq
        · rw [mem_singleton.1 hq]
          exact ⟨root, items, hreplaced⟩
    obtain ⟨plan', hrun, hsub', hr'⟩ := ih plan₁ (done ++ [t]) hnext.1 hnext.2
    refine ⟨plan', ?_, by simpa using hsub', hr'⟩
    rw [foldlM_cons, hstep]
    exact hrun

theorem nodup_targets (names : List Bytes) : (targets installed names).1.Nodup := by
  have key : ∀ (ns : List Bytes) (acc : List (Fin installed.length) × List Bytes), acc.1.Nodup →
      (ns.foldl (target installed) acc).1.Nodup := by
    intro ns
    induction ns with
    | nil => exact fun acc h => h
    | cons n ns ih =>
      refine fun acc h => ih _ ?_
      unfold target
      split
      · exact h
      · split_ifs with h1 h2
        · exact h
        · exact h
        · simpa [nodup_append] using ⟨h, fun a ha e => h2 (e ▸ ha)⟩
  refine key names _ ?_
  split_ifs
  · exact (nodup_finRange _).filter _
  · exact nodup_nil

/-- Every upgrade ends, with replacements of distinct packages. -/
theorem upgrade_spec (pool : List Candidate) (installed : List Installed) (names : List Bytes) :
    ∃ plan, upgrade pool installed names = some plan ∧ (plan.replacements.map Replacement.installed).Nodup ∧
      ∀ r ∈ plan.replacements, ∃ root items, Replaced r root items := by
  obtain ⟨plan, hrun, hsub, hr⟩ := replaced_of_foldlM pool (targets installed names).1
    ⟨[], [], (targets installed names).2⟩ [] (List.Sublist.refl _) (by simp)
  exact ⟨plan, hrun, (nodup_targets names).sublist (by exact hsub), hr⟩

/-- **A group holds a name once** exactly if no two records have one name that the package reaches by dependencies
which nothing installed closes: the group of an install, and of each replacement of an upgrade. -/
theorem group_names (pool : List Candidate) (installed : List Installed) :
    (∀ r items notes, install pool installed r = some (.ok (.install items notes)) →
      ∃ root, find pool (request r).2 (request r).1 = .ok root ∧
        ((items.map fun x => pool[x.candidate].name).Nodup ∧ ¬ Repeats pool items ↔ OneOfAName pool installed root)) ∧
    ∀ names plan, upgrade pool installed names = some plan → ∀ r ∈ plan.replacements,
      ∃ root, record pool installed[r.installed] = some root ∧
        ((r.items.map fun x => pool[x.candidate].name).Nodup ∧ ¬ Repeats pool r.items ↔ OneOfAName pool installed root) := by
  refine ⟨fun r items notes h => ?_, fun names plan h r hr => ?_⟩
  · obtain ⟨root, walked, hroot, hplan, -, rfl⟩ := install_items h
    exact ⟨root, hroot, hplan.names_iff true⟩
  · obtain ⟨plan', h', -, hreplaced⟩ := upgrade_spec pool installed names
    cases h.symm.trans h'
    obtain ⟨root, items, hrep⟩ := hreplaced r hr
    rw [hrep.items_eq]
    exact ⟨root, hrep.record, hrep.planned.names_iff _⟩

/-- The first package needs two that need a third; another repository has one of their names, and a package that needs
nothing. -/
def diamond : List Candidate :=
  [⟨[1], [7], [], [], [[8], [9]], .replicate 32 1⟩, ⟨[1], [8], [], [], [[10]], .replicate 32 1⟩,
    ⟨[1], [9], [], [], [[10]], .replicate 32 1⟩, ⟨[1], [10], [], [], [], .replicate 32 1⟩,
    ⟨[2], [9], [], [[12]], [], .replicate 32 1⟩, ⟨[2], [11], [], [], [], .replicate 32 1⟩]

theorem reach_diamond {have_ : List Installed} {a k : Fin diamond.length}
    (h : ReflTransGen (Dep diamond have_) a k) : a.val < 4 ↔ k.val < 4 := by
  have hfind : ∀ i, ∀ d ∈ (diamond.get i).depends, ∀ j ∈ (find diamond d none).toOption, i.val < 4 ↔ j.val < 4 := by
    decide
  induction h with
  | refl => rfl
  | tail _ hdep ih =>
    obtain ⟨d, hd, -, hj⟩ := hdep
    exact ih.trans (hfind _ d hd _ (by rw [hj]; rfl))

/-- Four packages, each name once. -/
theorem group_names_diamond : ∃ items notes, install diamond [] [7] = some (.ok (.install items notes)) ∧
    items.length = 4 ∧ (items.map fun x => diamond[x.candidate].name).Nodup ∧ ¬ Repeats _ items := by
  refine ⟨_, _, rfl, rfl, ?_⟩
  obtain ⟨root, hroot, hnames⟩ := (group_names diamond []).1 [7] _ _ rfl
  refine hnames.2 fun i j hi hj => ?_
  have h0 : root.val < 4 := by
    cases hroot
    decide
  have hinj : ∀ i j : Fin diamond.length, i.val < 4 → j.val < 4 →
      (diamond.get i).name = (diamond.get j).name → i = j := by
    decide
  exact hinj i j ((reach_diamond hi).1 h0) ((reach_diamond hj).1 h0)

/-- A repository has `x` and what needs `x` and `z`; a later one has another `x`, which provides `z`. -/
def twoNames : List Candidate :=
  [⟨[1], [7], [], [], [[8], [9]], .replicate 32 0⟩, ⟨[1], [8], [], [], [], .replicate 32 0⟩,
    ⟨[2], [8], [], [[9]], [], .replicate 32 0⟩]

/-- Each repository has one record of a name, and the plan has both of `x`. -/
theorem two_of_one_name :
    (∀ i j : Fin twoNames.length, twoNames[i].repository = twoNames[j].repository →
      twoNames[i].name = twoNames[j].name → i = j) ∧
    ∃ items notes, install twoNames [] [7] = some (.ok (.install items notes)) ∧
      ¬ (items.map fun x => twoNames[x.candidate].name).Nodup :=
  ⟨by decide, [⟨⟨1, by decide⟩, false⟩, ⟨⟨2, by decide⟩, false⟩, ⟨⟨0, by decide⟩, true⟩], [], rfl, by decide⟩

end

end Resolve
