import AchProofs.Cli.ExtractInside
import AchProofs.Foundation.LinksGrow

namespace AchProofs.Cli.Extract

open Foundation Foundation.Links

/-- The destination is a directory, and whatever there is lies in one. -/
structure Ground (dst : List Name) (tree : Tree Name) : Prop where
  grounded : Grounded tree
  isDir : IsDir tree dst

/-- What `mkdirAll` of a path does. -/
structure Mkdir (dst : List Name) (d d' : Disk) (rel : List Name) (ok : Bool) : Prop where
  ok_iff : ok = true ↔ Reaches d.tree kernelHops dst rel ∨ Vacant d.tree kernelHops dst rel
  reaches : Reaches d.tree kernelHops dst rel → d' = d
  vacant : Vacant d.tree kernelHops dst rel →
    ∃ loc, walk d'.tree dirEnter kernelHops dst (names rel) = .ok loc ∧
      ∀ n, d'.tree (loc ++ [n]) = none
  ground : Ground dst d'.tree
  kept : Extends d.tree d'.tree

variable {dst rel : List Name} {d d' : Disk} {n : Name} {ok : Bool}

theorem vacant_concat {tree : Tree Name} (h : Vacant tree kernelHops dst (rel ++ [n])) :
    (∃ mid, walk tree dirEnter kernelHops dst (names rel) = .ok mid ∧ tree (mid ++ [n]) = none) ∨
      Vacant tree kernelHops dst rel := by
  obtain ⟨a, m, b, mid, hrel, ha, hfree⟩ := h
  rcases List.eq_nil_or_concat b with rfl | ⟨b', x, rfl⟩
  · obtain ⟨rfl, hm⟩ := List.append_inj' hrel rfl
    cases hm
    exact .inl ⟨mid, ha, hfree⟩
  · rw [List.concat_eq_append, ← List.cons_append, ← List.append_assoc] at hrel
    obtain ⟨rfl, -⟩ := List.append_inj' hrel rfl
    exact .inr ⟨a, m, b', mid, rfl, ha, hfree⟩

theorem vacant_append {tree : Tree Name} (h : Vacant tree kernelHops dst rel) :
    Vacant tree kernelHops dst (rel ++ [n]) := by
  obtain ⟨a, m, b, mid, rfl, ha, hfree⟩ := h
  exact ⟨a, m, b ++ [n], mid, by rw [List.append_assoc, List.cons_append], ha, hfree⟩

theorem freePlace_concat (tree : Tree Name) :
    freePlace dst tree (rel ++ [n]) =
      match walk tree dirEnter kernelHops dst (names rel) with
      | .error _ => none
      | .ok parent => if tree (parent ++ [n]) = none then some (parent ++ [n]) else none := by
  cases hw : walk tree dirEnter kernelHops dst (names rel) <;> simp [freePlace, hw]

theorem Mkdir.free_iff (h : Mkdir dst d d' rel ok) :
    (ok = true ∧ (freePlace dst d'.tree (rel ++ [n])).isSome) ↔
      Vacant d.tree kernelHops dst (rel ++ [n]) := by
  constructor
  · rintro ⟨hok, hfree⟩
    rcases h.ok_iff.mp hok with hreach | hvac
    · obtain ⟨mid, hmid⟩ := hreach
      rw [h.reaches ⟨mid, hmid⟩, freePlace_concat, hmid] at hfree
      dsimp only at hfree
      split_ifs at hfree with hnone
      · exact ⟨rel, n, [], mid, rfl, hmid, hnone⟩
      · cases hfree
    · exact vacant_append hvac
  · intro hvac
    rcases vacant_concat hvac with ⟨mid, hmid, hnone⟩ | hvac
    · refine ⟨h.ok_iff.mpr (.inl ⟨mid, hmid⟩), ?_⟩
      rw [h.reaches ⟨mid, hmid⟩, freePlace_concat, hmid]
      dsimp only
      rw [if_pos hnone]
      rfl
    · obtain ⟨loc, hloc, hnone⟩ := h.vacant hvac
      refine ⟨h.ok_iff.mpr (.inr hvac), ?_⟩
      rw [freePlace_concat, hloc]
      dsimp only
      rw [if_pos (hnone n)]
      rfl

theorem Ground.put (hg : Ground dst d.tree) {place : List Name} (node : Node Name)
    (h : freePlace dst d.tree (rel ++ [n]) = some place) :
    Ground dst (d.put place node).tree ∧ Extends d.tree (d.put place node).tree ∧
      ∃ parent, place = parent ++ [n] ∧ d.tree place = none ∧
        walk d.tree dirEnter kernelHops dst (names rel) = .ok parent := by
  rw [freePlace_concat] at h
  split at h
  · cases h
  · rename_i parent hwalk
    split_ifs at h with hfree
    obtain rfl := Option.some.inj h
    have hdir := walk_isDir hg.grounded hwalk hg.isDir
    have hext : Extends d.tree (d.put (parent ++ [n]) node).tree := extends_update hfree
    exact ⟨⟨hg.grounded.update hdir hfree, hg.isDir.extends hext⟩, hext, parent, rfl, hfree, hwalk⟩

theorem mkdirAll_spec (hg : Ground dst d.tree) (path : List Name) :
    Mkdir dst d (mkdirAll dst d path).1 path.reverse (mkdirAll dst d path).2 := by
  induction path with
  | nil =>
    have hreach : Reaches d.tree kernelHops dst [] := ⟨dst, walk_nil⟩
    exact ⟨iff_of_true rfl (.inl hreach), fun _ => rfl,
      fun hv => absurd hv hreach.not_vacant, hg, fun _ _ h => h⟩
  | cons n up ih =>
    rw [mkdirAll, List.reverse_cons]
    cases hwalk : walk d.tree dirEnter kernelHops dst (names (up.reverse ++ [n])) with
    | ok loc =>
      have hreach : Reaches d.tree kernelHops dst (up.reverse ++ [n]) := ⟨loc, hwalk⟩
      exact ⟨iff_of_true rfl (.inl hreach), fun _ => rfl,
        fun hv => absurd hv hreach.not_vacant, hg, fun _ _ h => h⟩
    | error e =>
      have hnot : ¬ Reaches d.tree kernelHops dst (up.reverse ++ [n]) := by
        rintro ⟨loc, hloc⟩
        rw [hwalk] at hloc
        cases hloc
      have hfree := ih.free_iff (n := n)
      generalize mkdirAll dst d up = made at ih hfree
      obtain ⟨d', ok⟩ := made
      -- nothing is made unless the path was vacant
      have hfail : ¬ Vacant d.tree kernelHops dst (up.reverse ++ [n]) →
          Mkdir dst d d' (up.reverse ++ [n]) false := fun hv =>
        ⟨iff_of_false (by simp) (fun h => h.elim hnot hv), fun h => absurd h hnot,
          fun h => absurd h hv, ih.ground, ih.kept⟩
      cases ok with
      | false => exact hfail fun hv => absurd (hfree.mpr hv).1 (by simp)
      | true =>
        dsimp only
        cases hplace : freePlace dst d'.tree (up.reverse ++ [n]) with
        | none =>
          refine hfail fun hv => absurd (hfree.mpr hv).2 ?_
          rw [hplace]
          simp
        | some place =>
          have hvac := hfree.mp ⟨rfl, by rw [hplace]; rfl⟩
          obtain ⟨hground, hext, parent, rfl, hnone, hparent⟩ := ih.ground.put .dir hplace
          refine ⟨iff_of_true rfl (.inr hvac), fun h => absurd h hnot, fun _ => ?_, hground,
            fun p x hx => hext p x (ih.kept p x hx)⟩
          refine ⟨parent ++ [n], walk_names_concat (walk_extends hext hparent) ?_, fun m => ?_⟩
          · exact Function.update_self ..
          · show Function.update d'.tree _ _ _ = none
            rw [Function.update_of_ne (by simp)]
            exact ih.ground.grounded.none_below (by simp) hnone [m]

/-- Where an entry finds room: a file or a link at a name nothing has yet, a directory there or at
one that is there already. A file has to be readable once it is written. -/
def Fits (cfg : Config) (s : State) (e : Entry) : Prop :=
  let rel := (normal (parse e.name).parts).2
  match e.kind with
  | .dir => Reaches s.disk.tree kernelHops cfg.dst rel ∨ Vacant s.disk.tree kernelHops cfg.dst rel
  | .reg _ broken => Vacant s.disk.tree kernelHops cfg.dst rel ∧ broken = false
  | .symlink _ => Vacant s.disk.tree kernelHops cfg.dst rel
  | _ => True

section Write

variable {cfg : Config} {s : State}

theorem mkdir_free_iff (hg : Ground cfg.dst s.disk.tree) (hrel : rel ≠ []) :
    ((mkdirAll cfg.dst s.disk rel.dropLast.reverse).2 = true ∧
        (freePlace cfg.dst (mkdirAll cfg.dst s.disk rel.dropLast.reverse).1.tree rel).isSome) ↔
      Vacant s.disk.tree kernelHops cfg.dst rel := by
  have hspec := mkdirAll_spec hg rel.dropLast.reverse
  rw [List.reverse_reverse] at hspec
  have hfree := hspec.free_iff (n := rel.getLast hrel)
  rwa [List.dropLast_append_getLast hrel] at hfree

theorem put_ground (hg : Ground cfg.dst s.disk.tree) (hrel : rel ≠ []) (place : List Name)
    (node : Node Name)
    (h : freePlace cfg.dst (mkdirAll cfg.dst s.disk rel.dropLast.reverse).1.tree rel = some place) :
    Ground cfg.dst ((mkdirAll cfg.dst s.disk rel.dropLast.reverse).1.put place node).tree := by
  have hspec := mkdirAll_spec hg rel.dropLast.reverse
  have h' : freePlace cfg.dst (mkdirAll cfg.dst s.disk rel.dropLast.reverse).1.tree
      (rel.dropLast ++ [rel.getLast hrel]) = some place := by
    rwa [List.dropLast_append_getLast hrel]
  exact (hspec.ground.put node h').1

theorem writeRegular_ok_iff (hg : Ground cfg.dst s.disk.tree) (hrel : rel ≠ []) {size : ℕ}
    {broken : Bool} (hsize : cfg.maxBytes = 0 ∨ s.bytesWritten + size ≤ cfg.maxBytes) :
    (writeRegular cfg s rel size broken).2 = none ↔
      Vacant s.disk.tree kernelHops cfg.dst rel ∧ broken = false := by
  rw [← mkdir_free_iff hg hrel]
  unfold writeRegular
  generalize mkdirAll cfg.dst s.disk rel.dropLast.reverse = made
  obtain ⟨d, ok⟩ := made
  cases ok with
  | false => simp
  | true =>
    dsimp only
    cases hplace : freePlace cfg.dst d.tree rel with
    | none => simp
    | some place =>
      have hcap : ¬ (0 < cfg.maxBytes ∧ cfg.maxBytes - s.bytesWritten < size) := by omega
      cases broken with
      | false => simp [hcap]
      | true => simp

theorem writeRegular_next (hg : Ground cfg.dst s.disk.tree) (hrel : rel ≠ []) {size : ℕ}
    {broken : Bool} (h : (writeRegular cfg s rel size broken).2 = none) :
    Ground cfg.dst (writeRegular cfg s rel size broken).1.disk.tree ∧
      (writeRegular cfg s rel size broken).1.entriesSeen = s.entriesSeen ∧
      (writeRegular cfg s rel size broken).1.bytesWritten = s.bytesWritten + size := by
  have hput := fun place => put_ground hg hrel place .file
  unfold writeRegular at h ⊢
  generalize mkdirAll cfg.dst s.disk rel.dropLast.reverse = made at h hput
  obtain ⟨d, ok⟩ := made
  cases ok with
  | false => cases h
  | true =>
    dsimp only at h hput ⊢
    cases hplace : freePlace cfg.dst d.tree rel with
    | none =>
      rw [hplace] at h
      cases h
    | some place =>
      rw [hplace] at h
      dsimp only at h ⊢
      split_ifs at h ⊢
      exact ⟨hput place hplace, rfl, rfl⟩

theorem writeSymlink_ok_iff (hg : Ground cfg.dst s.disk.tree) (hrel : rel ≠ [])
    {linkname : List Char}
    (hne : linkname ≠ []) (habs : (parse linkname).absolute = false)
    (hin : startsWithDst cfg.dst (lexical (cfg.dst ++ rel).dropLast (parse linkname).parts) =
      true) :
    (writeSymlink cfg s rel linkname).2 = none ↔ Vacant s.disk.tree kernelHops cfg.dst rel := by
  rw [← mkdir_free_iff hg hrel]
  unfold writeSymlink
  rw [if_neg hne, habs, hin]
  generalize mkdirAll cfg.dst s.disk rel.dropLast.reverse = made
  obtain ⟨d, ok⟩ := made
  cases ok with
  | false => simp
  | true =>
    dsimp only
    cases hplace : freePlace cfg.dst d.tree rel with
    | none => simp
    | some place => simp

theorem writeSymlink_next (hg : Ground cfg.dst s.disk.tree) (hrel : rel ≠ []) {linkname : List Char}
    (h : (writeSymlink cfg s rel linkname).2 = none) :
    Ground cfg.dst (writeSymlink cfg s rel linkname).1.disk.tree ∧
      (writeSymlink cfg s rel linkname).1.entriesSeen = s.entriesSeen ∧
      (writeSymlink cfg s rel linkname).1.bytesWritten = s.bytesWritten := by
  have hput := fun place => put_ground hg hrel place (.link (parse linkname))
  unfold writeSymlink at h ⊢
  split_ifs at h ⊢
  generalize mkdirAll cfg.dst s.disk rel.dropLast.reverse = made at h hput
  obtain ⟨d, ok⟩ := made
  cases ok with
  | false => cases h
  | true =>
    dsimp only at h hput ⊢
    cases hplace : freePlace cfg.dst d.tree rel with
    | none =>
      rw [hplace] at h
      cases h
    | some place => exact ⟨hput place hplace, rfl, rfl⟩

end Write

end AchProofs.Cli.Extract
