import AchProofs.Foundation.Links

namespace AchProofs.Cli.Contain

open Foundation.Links

variable {ν : Type}

def maxLinkHops : ℕ := 40

/-- The links `filepath.EvalSymlinks` follows before it gives up. -/
def evalLinkHops : ℕ := 255

/-- The errors of `CheckContained`. All but `root` are an `ErrNotContained`. -/
inductive Refusal (ν : Type)
  | outside
  | links (e : Failure)
  | resolvesTo (place : List ν)
  | root (e : Failure)
  deriving DecidableEq, Repr

/-- `filepath.EvalSymlinks` wants every part to exist, and all but the last to be directories. -/
def evalEnter : Enter ν
  | some .dir, _ => none
  | none, _ => some .notExist
  | some _, [] => none
  | some _, _ :: _ => some .notDir

def evalSymlinks (fs : Tree ν) (path : List ν) : Except Failure (List ν) :=
  walk fs evalEnter evalLinkHops [] (names path)

/-- The loop of `resolveLinks`, with the turns it may take. It returns nothing when it needs
more. -/
def resolveLoop (fs : Tree ν) :
    ℕ → ℕ → List ν → List (Part ν) → Option (Except Failure (List ν))
  | 0, _, _, _ => none
  | _ + 1, _, dir, [] => some (.ok dir)
  | fuel + 1, hops, dir, .up :: pending => resolveLoop fs fuel hops dir.dropLast pending
  | fuel + 1, hops, dir, .name n :: pending =>
    match fs (dir ++ [n]) with
    | some (.link t) =>
      if hops + 1 > maxLinkHops then
        some (.error .tooManyLinks)
      else
        resolveLoop fs fuel (hops + 1) (t.base dir) (t.parts ++ pending)
    -- a directory, a file, or nothing there: taken as written
    | _ => resolveLoop fs fuel hops (dir ++ [n]) pending

def resolveLinks (fs : Tree ν) (fuel : ℕ) (dir : List ν) (rel : List (Part ν)) :
    Option (Except Failure (List ν)) :=
  resolveLoop fs fuel 0 dir rel

section Loop

variable {fs : Tree ν} {fuel hops : ℕ} {dir : List ν} {n : ν} {pending : List (Part ν)}

theorem resolveLoop_link {t : Written ν} (ht : fs (dir ++ [n]) = some (.link t)) :
    resolveLoop fs (fuel + 1) hops dir (.name n :: pending)
      = if hops + 1 > maxLinkHops then some (.error .tooManyLinks)
        else resolveLoop fs fuel (hops + 1) (t.base dir) (t.parts ++ pending) := by
  rw [resolveLoop, ht]

theorem resolveLoop_pass (hl : ∀ t, fs (dir ++ [n]) ≠ some (.link t)) :
    resolveLoop fs (fuel + 1) hops dir (.name n :: pending)
      = resolveLoop fs fuel hops (dir ++ [n]) pending := by
  rw [resolveLoop]
  split
  · rename_i t ht
    exact absurd ht (hl t)
  · rfl

theorem eq_walk_of_resolveLoop {r : Except Failure (List ν)}
    (h : resolveLoop fs fuel hops dir pending = some r) :
    r = walk fs passEnter (maxLinkHops - hops) dir pending := by
  induction fuel generalizing hops dir pending with
  | zero => cases h
  | succ fuel ih =>
    cases pending with
    | nil =>
      cases h
      exact walk_nil.symm
    | cons part pending =>
      cases part with
      | up =>
        rw [walk_up]
        exact ih h
      | name n =>
        by_cases hl : ∃ t, fs (dir ++ [n]) = some (.link t)
        · obtain ⟨t, ht⟩ := hl
          rw [resolveLoop_link ht] at h
          split_ifs at h with hmax
          · cases h
            rw [show maxLinkHops - hops = 0 by omega, walk_link_zero ht]
          · rw [show maxLinkHops - hops = maxLinkHops - (hops + 1) + 1 by omega, walk_link ht]
            exact ih h
        · have hl' : ∀ t, fs (dir ++ [n]) ≠ some (.link t) := fun t ht => hl ⟨t, ht⟩
          rw [resolveLoop_pass hl'] at h
          rw [walk_pass hl' rfl]
          exact ih h

/-- The loop ends: each turn takes a part away, and the turns that add parts use up a link. -/
theorem exists_resolveLoop (fs : Tree ν) (hops : ℕ) (dir : List ν) (pending : List (Part ν)) :
    ∃ fuel r, resolveLoop fs fuel hops dir pending = some r := by
  induction hk : maxLinkHops - hops using Nat.strong_induction_on generalizing hops dir pending with
  | _ k ihh =>
    induction pending generalizing dir with
    | nil => exact ⟨1, _, rfl⟩
    | cons part pending ih =>
      cases part with
      | up =>
        obtain ⟨fuel, r, h⟩ := ih dir.dropLast
        exact ⟨fuel + 1, r, h⟩
      | name n =>
        by_cases hl : ∃ t, fs (dir ++ [n]) = some (.link t)
        · obtain ⟨t, ht⟩ := hl
          by_cases hmax : hops + 1 > maxLinkHops
          · exact ⟨1, _, (resolveLoop_link ht).trans (if_pos hmax)⟩
          · obtain ⟨fuel, r, h⟩ := ihh (maxLinkHops - (hops + 1)) (by omega) (hops + 1)
              (t.base dir) (t.parts ++ pending) rfl
            exact ⟨fuel + 1, r, ((resolveLoop_link ht).trans (if_neg hmax)).trans h⟩
        · obtain ⟨fuel, r, h⟩ := ih (dir ++ [n])
          exact ⟨fuel + 1, r, (resolveLoop_pass fun t ht => hl ⟨t, ht⟩).trans h⟩

theorem exists_resolveLinks (fs : Tree ν) (dir : List ν) (rel : List (Part ν)) :
    ∃ fuel, resolveLinks fs fuel dir rel = some (walk fs passEnter maxLinkHops dir rel) := by
  obtain ⟨fuel, r, h⟩ := exists_resolveLoop fs 0 dir rel
  exact ⟨fuel, h.trans (congrArg some (eq_walk_of_resolveLoop h))⟩

end Loop

variable [DecidableEq ν]

/-- `filepath.Rel` of two clean paths stays below when the first is the start of the second. -/
def isUnder (root path : List ν) : Bool := decide (root <+: path)

/-- `CheckContained` on the parts of two absolute paths; a relative one is joined to the working
directory before. `filepath.Abs` cleans a path as it is written. -/
def checkContained (fs : Tree ν) (fuel : ℕ) (root path : List (Part ν)) :
    Option (Except (Refusal ν) Unit) :=
  let absRoot := lexical [] root
  let absPath := lexical [] path
  if !isUnder absRoot absPath then
    some (.error .outside)
  else
    match evalSymlinks fs absRoot with
    | .error .notExist => some (.ok ())
    | .error e => some (.error (.root e))
    | .ok realRoot =>
      match resolveLinks fs fuel realRoot (names (absPath.drop absRoot.length)) with
      | none => none
      | some (.error e) => some (.error (.links e))
      | some (.ok resolved) =>
        if isUnder realRoot resolved then some (.ok ()) else some (.error (.resolvesTo resolved))

/-- Where the kernel gets to when it opens or creates a file at a path. -/
def kernel (fs : Tree ν) (path : List (Part ν)) : Except Failure (List ν) :=
  walk fs openEnter maxLinkHops [] path

def StaysUnder (fs : Tree ν) (root path : List (Part ν)) : Prop :=
  ∃ realRoot place, kernel fs root = .ok realRoot ∧ kernel fs path = .ok place ∧ realRoot <+: place

/-- The check returns on this tree, and what it accepts is what stays below the root. -/
structure Guards (fs : Tree ν) (root path : List (Part ν)) : Prop where
  returns : ∃ fuel, (checkContained fs fuel root path).isSome
  sound : ∀ fuel place, checkContained fs fuel root path = some (.ok ()) →
    kernel fs path = .ok place → StaysUnder fs root path
  complete : StaysUnder fs root path → ∃ fuel, checkContained fs fuel root path = some (.ok ())

section Check

variable {fs : Tree ν} {fuel : ℕ} {root path : List (Part ν)} {realRoot place : List ν}

theorem checkContained_returns (fs : Tree ν) (root path : List (Part ν)) :
    ∃ fuel, (checkContained fs fuel root path).isSome := by
  unfold checkContained
  dsimp only
  split_ifs
  · exact ⟨0, rfl⟩
  · split
    · exact ⟨0, rfl⟩
    · exact ⟨0, rfl⟩
    · rename_i realRoot _
      obtain ⟨fuel, h⟩ := exists_resolveLinks fs realRoot
        (names ((lexical [] path).drop (lexical [] root).length))
      refine ⟨fuel, ?_⟩
      rw [h]
      cases walk fs passEnter maxLinkHops realRoot _ with
      | error e => rfl
      | ok resolved =>
        dsimp only
        split_ifs <;> rfl

theorem checkContained_missing (h : lexical [] root <+: lexical [] path)
    (hroot : evalSymlinks fs (lexical [] root) = .error .notExist) :
    checkContained fs fuel root path = some (.ok ()) := by
  unfold checkContained
  simp only [isUnder, h, hroot]
  rfl

section Found

variable (hroot : evalSymlinks fs (lexical [] root) = .ok realRoot)
  (hwalk : walk fs passEnter maxLinkHops realRoot
    (names ((lexical [] path).drop (lexical [] root).length)) = .ok place)

include hroot hwalk

theorem prefix_of_checkContained (h : checkContained fs fuel root path = some (.ok ())) :
    realRoot <+: place := by
  unfold checkContained at h
  simp only [hroot] at h
  split_ifs at h
  · cases h
  split at h
  · cases h
  · cases h
  · rename_i resolved hres
    have hr : Except.ok resolved = Except.ok place := hwalk ▸ eq_walk_of_resolveLoop hres
    cases hr
    split_ifs at h with hunder
    · exact of_decide_eq_true hunder
    · cases h

theorem exists_checkContained (h : lexical [] root <+: lexical [] path)
    (hplace : realRoot <+: place) :
    ∃ fuel, checkContained fs fuel root path = some (.ok ()) := by
  obtain ⟨fuel, hres⟩ := exists_resolveLinks fs realRoot
    (names ((lexical [] path).drop (lexical [] root).length))
  refine ⟨fuel, ?_⟩
  unfold checkContained
  simp only [isUnder, h, hroot, hres, hwalk, hplace]
  rfl

end Found

end Check

section Plain

variable {fs : Tree ν} {root path : List (Part ν)} {realRoot place : List ν}

omit [DecidableEq ν] in
theorem evalSymlinks_of_kernel (hp : Plain root) (h : kernel fs root = .ok realRoot) :
    evalSymlinks fs (lexical [] root) = .ok realRoot
      ∨ evalSymlinks fs (lexical [] root) = .error .notExist := by
  rw [kernel, walk_plain_top hp] at h
  refine walk_ok_induction (motive := fun hops dir parts => ∀ k, hops ≤ k →
    walk fs evalEnter k dir parts = .ok realRoot
      ∨ walk fs evalEnter k dir parts = .error .notExist)
    ?nil ?up ?link ?pass h evalLinkHops (by decide)
  case nil => exact fun _ _ _ => .inl walk_nil
  case up =>
    intro hops dir rest _ ih k hk
    rw [walk_up]
    exact ih k hk
  case link =>
    intro hops dir n t rest ht _ ih k hk
    obtain ⟨k, rfl⟩ : ∃ j, k = j + 1 := ⟨k - 1, by omega⟩
    rw [walk_link ht]
    exact ih k (by omega)
  case pass =>
    intro hops dir n rest hl he _ ih k hk
    cases hn : fs (dir ++ [n]) with
    -- opening may create the last part, here it has to be there
    | none => exact .inr (walk_stop hl (by rw [hn]; rfl))
    | some node =>
      have hpass : evalEnter (fs (dir ++ [n])) rest = none := by
        rw [hn] at he ⊢
        cases node with
        | dir => rfl
        | link t => exact absurd hn (hl t)
        | file =>
          cases rest with
          | nil => rfl
          | cons part rest => cases he
      rw [walk_pass hl hpass]
      exact ih k hk

omit [DecidableEq ν] in
theorem kernel_below (hr : Plain root) (hp : Plain path)
    (hunder : lexical [] root <+: lexical [] path)
    (hne : lexical [] path ≠ lexical [] root) (h : kernel fs path = .ok place) :
    ∃ realRoot, kernel fs root = .ok realRoot ∧ evalSymlinks fs (lexical [] root) = .ok realRoot
      ∧ walk fs passEnter maxLinkHops realRoot
          (names ((lexical [] path).drop (lexical [] root).length)) = .ok place := by
  obtain ⟨below, hbelow⟩ := hunder
  have hne' : names below ≠ [] := by
    intro hnil
    rw [names, List.map_eq_nil_iff] at hnil
    rw [hnil, List.append_nil] at hbelow
    exact hne hbelow.symm
  rw [kernel, walk_plain_top hp, ← hbelow, names, List.map_append] at h
  obtain ⟨k, realRoot, hk, hfound, hrest⟩ :=
    walk_append_ok (fun _ _ => dirEnter_of_openEnter hne') h
  refine ⟨realRoot, ?_, ?_, ?_⟩
  · rw [kernel, walk_plain_top hr]
    exact walk_mono (fun node rest he => by rw [eq_dir_of_dirEnter he]; rfl) le_rfl hfound
  · exact walk_mono (fun node rest he => by rw [eq_dir_of_dirEnter he]; rfl) (by decide) hfound
  · rw [← hbelow, List.drop_left]
    exact walk_mono (fun _ _ _ => rfl) hk hrest

/-- On every tree the check says what the kernel would do, for the paths that are below the root as
they are written and have no step up after a name, as `filepath.Clean` leaves an absolute path. -/
theorem guards_of_plain (fs : Tree ν) (hr : Plain root) (hp : Plain path)
    (hunder : lexical [] root <+: lexical [] path) : Guards fs root path where
  returns := checkContained_returns fs root path
  sound := by
    intro fuel place hcheck hplace
    by_cases heq : lexical [] path = lexical [] root
    · refine ⟨place, place, ?_, hplace, List.prefix_rfl⟩
      rw [kernel, walk_plain_top hr, ← heq, ← walk_plain_top hp]
      exact hplace
    · obtain ⟨realRoot, hroot, heval, hwalk⟩ := kernel_below hr hp hunder heq hplace
      exact ⟨realRoot, place, hroot, hplace, prefix_of_checkContained heval hwalk hcheck⟩
  complete := by
    rintro ⟨realRoot, place, hroot, hplace, hpre⟩
    obtain heval | hmissing := evalSymlinks_of_kernel hr hroot
    · by_cases heq : lexical [] path = lexical [] root
      · have hwalk : walk fs passEnter maxLinkHops realRoot
            (names ((lexical [] path).drop (lexical [] root).length)) = .ok realRoot := by
          rw [heq, List.drop_length]
          exact walk_nil
        exact exists_checkContained heval hwalk hunder List.prefix_rfl
      · obtain ⟨realRoot', _, heval', hwalk⟩ := kernel_below hr hp hunder heq hplace
        rw [heval] at heval'
        cases heval'
        exact exists_checkContained heval hwalk hunder hpre
    · exact ⟨0, checkContained_missing hunder hmissing⟩

end Plain

theorem not_guards_of_accepted {fs : Tree ν} {root path : List (Part ν)}
    {realRoot place : List ν} {fuel : ℕ}
    (hcheck : checkContained fs fuel root path = some (.ok ()))
    (hplace : kernel fs path = .ok place)
    (hroot : kernel fs root = .ok realRoot) (hpre : ¬ realRoot <+: place) :
    ¬ Guards fs root path := by
  intro hg
  obtain ⟨realRoot', place', hroot', hplace', hpre'⟩ := hg.sound fuel place hcheck hplace
  rw [hroot] at hroot'
  rw [hplace] at hplace'
  cases hroot'
  cases hplace'
  exact hpre hpre'

/-- The workspace `/w` with a link in it to a directory outside. -/
def linkedOut : Tree String := fun place =>
  if place = ["w"] ∨ place = ["out"] ∨ place = ["out", "d"] then some .dir
  else if place = ["w", "link"] then some (.link ⟨true, [.name "out", .name "d"]⟩)
  else none

theorem contained_in_workspace :
    kernel linkedOut [.name "w", .name "link", .name "f"] = .ok ["out", "d", "f"]
      ∧ Guards linkedOut [.name "w"] [.name "w", .name "link", .name "f"] :=
  ⟨by decide, guards_of_plain linkedOut ⟨0, ["w"], rfl⟩ ⟨0, ["w", "link", "f"], rfl⟩ (by decide)⟩

/-- `/w/link/../f` is accepted as `/w/f`, the kernel creates `/out/f`. -/
theorem climb_after_link_escapes :
    checkContained linkedOut 10 [.name "w"] [.name "w", .name "link", .up, .name "f"]
        = some (.ok ())
    ∧ kernel linkedOut [.name "w"] = .ok ["w"]
    ∧ kernel linkedOut [.name "w", .name "link", .up, .name "f"] = .ok ["out", "f"]
    ∧ ¬ ["w"] <+: ["out", "f"]
    ∧ ¬ Guards linkedOut [.name "w"] [.name "w", .name "link", .up, .name "f"] := by
  have hcheck : checkContained linkedOut 10 [.name "w"] [.name "w", .name "link", .up, .name "f"]
      = some (.ok ()) := by decide
  have hroot : kernel linkedOut [.name "w"] = .ok ["w"] := by decide
  have hplace : kernel linkedOut [.name "w", .name "link", .up, .name "f"] = .ok ["out", "f"] := by
    decide
  have hpre : ¬ ["w"] <+: ["out", "f"] := by decide
  exact ⟨hcheck, hroot, hplace, hpre, not_guards_of_accepted hcheck hplace hroot hpre⟩

end AchProofs.Cli.Contain
