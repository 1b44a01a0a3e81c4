import AchProofs.Cli.ExtractFits
import AchProofs.Cli.ExtractTurn

namespace AchProofs.Cli.Extract

open Foundation Foundation.Links

def LinkFree (dst : List Name) (tree : Tree Name) : Prop :=
  ∀ q t, q ≠ [] → tree (dst ++ q) ≠ some (.link t)

variable {dst rel : List Name} {tree : Tree Name} {d : Disk}

theorem walk_linkFree (hl : LinkFree dst tree) {hops : ℕ} {a b loc : List Name}
    (h : walk tree dirEnter hops (dst ++ a) (names b) = .ok loc) :
    loc = dst ++ (a ++ b) ∧ ∀ m, m ≠ [] → m <+: b → tree (dst ++ (a ++ m)) = some .dir := by
  induction b generalizing a with
  | nil =>
    have hnil : walk tree dirEnter hops (dst ++ a) [] = .ok loc := h
    rw [walk_nil] at hnil
    cases hnil
    exact ⟨by simp, fun m hm hpre => absurd (List.prefix_nil.mp hpre) hm⟩
  | cons n b ih =>
    have hassoc : dst ++ a ++ [n] = dst ++ (a ++ [n]) := List.append_assoc _ _ _
    obtain ⟨t, _, ht, -, -⟩ | ⟨-, hdir, hrest⟩ := walk_name_ok (n := n) h
    · rw [hassoc] at ht
      exact absurd ht (hl _ t (by simp))
    · rw [hassoc] at hdir hrest
      obtain ⟨hloc, hb⟩ := ih hrest
      refine ⟨by rw [hloc, List.append_assoc, List.singleton_append], fun m hm hpre => ?_⟩
      cases m with
      | nil => exact absurd rfl hm
      | cons x m =>
        obtain ⟨rfl, htail⟩ := List.cons_prefix_cons.mp hpre
        cases m with
        | nil => exact eq_dir_of_dirEnter hdir
        | cons y m =>
          have := hb (y :: m) (by simp) htail
          rwa [List.append_assoc, List.singleton_append] at this

theorem walk_dst_linkFree (hl : LinkFree dst tree) {hops : ℕ} {loc : List Name}
    (h : walk tree dirEnter hops dst (names rel) = .ok loc) :
    loc = dst ++ rel ∧ ∀ m, m ≠ [] → m <+: rel → tree (dst ++ m) = some .dir := by
  have h' : walk tree dirEnter hops (dst ++ []) (names rel) = .ok loc := by rwa [List.append_nil]
  exact walk_linkFree hl h'

theorem walk_linkFree_place (hl : LinkFree dst tree) {enter : Enter Name} {hops : ℕ}
    {a b loc : List Name}
    (h : walk tree enter hops (dst ++ a) (names b) = .ok loc) : loc = dst ++ (a ++ b) := by
  induction b generalizing a with
  | nil =>
    have hnil : walk tree enter hops (dst ++ a) [] = .ok loc := h
    rw [walk_nil] at hnil
    cases hnil
    rw [List.append_nil]
  | cons n b ih =>
    have hassoc : dst ++ a ++ [n] = dst ++ (a ++ [n]) := List.append_assoc _ _ _
    obtain ⟨t, _, ht, -, -⟩ | ⟨-, -, hrest⟩ := walk_name_ok (n := n) h
    · rw [hassoc] at ht
      exact absurd ht (hl _ t (by simp))
    · rw [hassoc] at hrest
      rw [ih hrest, List.append_assoc, List.singleton_append]

theorem isDir_of_isPrefixOf (hg : Grounded tree) {p q : List Name} (hp : IsDir tree p)
    (hpre : q <+: p) : IsDir tree q := by
  obtain ⟨r, rfl⟩ := hpre
  induction r using List.reverseRecOn with
  | nil => rwa [List.append_nil] at hp
  | append_singleton r n ih =>
    refine ih ?_
    have := hg.isDir_dropLast hp
    rwa [← List.append_assoc, List.dropLast_concat] at this

theorem dirs_of_dir (hg : Ground dst tree) (h : rel = [] ∨ tree (dst ++ rel) = some .dir) :
    ∀ m, m ≠ [] → m <+: rel → tree (dst ++ m) = some .dir := by
  intro m hm hpre
  have hdir : IsDir tree (dst ++ rel) := by
    rcases h with rfl | h
    · exact absurd (List.prefix_nil.mp hpre) hm
    · exact .inr h
  rcases isDir_of_isPrefixOf hg.grounded hdir ((List.prefix_append_right_inj dst).mpr
    hpre) with h | h
  · exact absurd (List.append_eq_nil_iff.mp h).2 hm
  · exact h

theorem reaches_linkFree_iff (hg : Ground dst tree) (hl : LinkFree dst tree) :
    Reaches tree kernelHops dst rel ↔ rel = [] ∨ tree (dst ++ rel) = some .dir := by
  constructor
  · rintro ⟨loc, hloc⟩
    by_cases hrel : rel = []
    · exact .inl hrel
    · exact .inr ((walk_dst_linkFree hl hloc).2 rel hrel List.prefix_rfl)
  · intro h
    exact ⟨_, walk_names_ok (fun _ => rfl) (dirs_of_dir hg h)⟩

theorem vacant_iff (hg : Ground dst tree) (hl : LinkFree dst tree) :
    Vacant tree kernelHops dst rel ↔ rel ≠ [] ∧ tree (dst ++ rel) = none ∧
      ∀ m, m ≠ [] → m <+: rel → tree (dst ++ m) ≠ some .file := by
  constructor
  · rintro ⟨a, n, b, mid, rfl, ha, hfree⟩
    obtain ⟨rfl, hdirs⟩ := walk_dst_linkFree hl ha
    have hbelow := hg.grounded.none_below (by simp) hfree
    refine ⟨by simp, ?_, fun m hm hpre hfile => ?_⟩
    · have := hbelow b
      rwa [List.append_assoc, List.singleton_append, List.append_assoc] at this
    · -- what is on the way is a directory up to the vacant name, and nothing from there on
      rcases List.prefix_or_prefix_of_prefix hpre (List.prefix_append a (n :: b)) with hma | ham
      · rw [hdirs m hm hma] at hfile
        cases hfile
      · obtain ⟨r, rfl⟩ := ham
        rw [List.prefix_append_right_inj] at hpre
        cases r with
        | nil =>
          rw [List.append_nil] at hm hfile
          rw [hdirs a hm List.prefix_rfl] at hfile
          cases hfile
        | cons x r =>
          obtain ⟨rfl, -⟩ := List.cons_prefix_cons.mp hpre
          have := hbelow r
          rw [List.append_assoc, List.singleton_append, List.append_assoc] at this
          rw [this] at hfile
          cases hfile
  · rintro ⟨hrel, hnone, hfiles⟩
    -- the longest part of the path that is there
    induction rel using List.reverseRecOn with
    | nil => exact absurd rfl hrel
    | append_singleton r n ih =>
      by_cases hr : r = [] ∨ tree (dst ++ r) = some .dir
      · refine ⟨r, n, [], dst ++ r, rfl, walk_names_ok (fun _ => rfl) (dirs_of_dir hg hr), ?_⟩
        rwa [List.append_assoc]
      · obtain ⟨hne, hdir⟩ := not_or.mp hr
        refine vacant_append (ih hne ?_ fun m hm hpre =>
          hfiles m hm (hpre.trans (List.prefix_append r [n])))
        cases hnode : tree (dst ++ r) with
        | none => rfl
        | some node =>
          cases node with
          | dir => exact absurd hnode hdir
          | file => exact absurd hnode (hfiles r hne (List.prefix_append r [n]))
          | link t => exact absurd hnode (hl r t hne)

theorem mkdirAll_plain (hg : Ground dst d.tree) (hl : LinkFree dst d.tree) (path : List Name) :
    ∀ q, q ≠ [] → (mkdirAll dst d path).1.tree (dst ++ q) = d.tree (dst ++ q) ∨
      ((mkdirAll dst d path).1.tree (dst ++ q) = some .dir ∧ d.tree (dst ++ q) = none ∧
        q <+: path.reverse) := by
  induction path with
  | nil => exact fun _ _ => .inl rfl
  | cons n up ih =>
    intro q hq
    have hspec := mkdirAll_spec hg up
    have hlinks := (mkdirAll_keeps dst d up).2
    rw [mkdirAll, List.reverse_cons]
    have hkeep := (ih q hq).imp id fun h => (⟨h.1, h.2.1, h.2.2.trans (List.prefix_append _ [n])⟩ :
      _ ∧ _ ∧ q <+: up.reverse ++ [n])
    split
    · exact .inl rfl
    · generalize mkdirAll dst d up = made at ih hspec hlinks hkeep
      obtain ⟨d', ok⟩ := made
      cases ok with
      | false => exact hkeep
      | true =>
        dsimp only at hkeep ⊢
        cases hplace : freePlace dst d'.tree (up.reverse ++ [n]) with
        | none => exact hkeep
        | some place =>
          obtain ⟨-, -, parent, rfl, hnone, hparent⟩ := hspec.ground.put .dir hplace
          have hl' : LinkFree dst d'.tree := fun q t hq ht => hl q t hq ((hlinks _ _).mp ht)
          obtain ⟨rfl, -⟩ := walk_dst_linkFree hl' hparent
          rw [List.append_assoc] at hnone
          by_cases hqq : q = up.reverse ++ [n]
          · subst hqq
            refine .inr ⟨?_, ?_, List.prefix_rfl⟩
            · show Function.update d'.tree _ _ _ = _
              rw [List.append_assoc, Function.update_self]
            · rcases ih _ hq with hsame | ⟨hdir, -, -⟩
              · exact hsame.symm.trans hnone
              · rw [hnone] at hdir
                cases hdir
          · have hne : dst ++ q ≠ dst ++ up.reverse ++ [n] := by
              rw [List.append_assoc]
              exact fun he => hqq (List.append_cancel_left he)
            have hput : (d'.put (dst ++ up.reverse ++ [n]) .dir).tree (dst ++ q) =
              d'.tree (dst ++ q) := Function.update_of_ne hne ..
            rw [hput]
            exact hkeep

theorem LinkFree.addsDirs {d' : Disk} (hl : LinkFree dst d.tree) (h : AddsDirs d d') :
    LinkFree dst d'.tree := by
  intro q t hq ht
  rcases h.tree (dst ++ q) with hsame | ⟨-, hdir, -⟩
  · exact hl q t hq (hsame ▸ ht)
  · rw [hdir] at ht
    cases ht

theorem freePlace_linkFree {place : List Name} (hl : LinkFree dst tree)
    (h : freePlace dst tree rel = some place) :
    place = dst ++ rel ∧ ∀ m, m ≠ [] → m <+: rel.dropLast → tree (dst ++ m) = some .dir := by
  rcases List.eq_nil_or_concat rel with rfl | ⟨up, n, rfl⟩
  · simp [freePlace] at h
  · rw [List.concat_eq_append] at h ⊢
    rw [freePlace_concat] at h
    split at h
    · cases h
    · rename_i parent hwalk
      split_ifs at h
      cases h
      obtain ⟨rfl, hdirs⟩ := walk_dst_linkFree hl hwalk
      rw [List.dropLast_concat]
      exact ⟨List.append_assoc .., hdirs⟩

section Plain

variable {α : Type} {cfg : Config} {s : State} {f : α → Entry}

theorem Turn.plain {e : Entry} {s' : State} (h : Turn cfg s e (s', none))
    (hl : LinkFree cfg.dst s.disk.tree)
    (hplain : ∀ name, e.kind ≠ .symlink name) :
    LinkFree cfg.dst s'.disk.tree ∧
      ((∃ size broken, e.kind = .reg size broken) → s'.disk.newest e.kind = [cfg.dst ++ e.rel] ∧
        ∀ m, m ≠ [] → m <+: e.rel.dropLast → s'.disk.tree (cfg.dst ++ m) = some .dir) ∧
      ((∀ size broken, e.kind ≠ .reg size broken) → s'.disk.newest e.kind = []) := by
  cases h with
  | link _ _ linkname hkind => exact absurd hkind (hplain linkname)
  | pass d hd _ hreg =>
    refine ⟨hl.addsDirs hd, fun ⟨size, broken, hkind⟩ => absurd hkind (hreg size broken),
      fun _ => ?_⟩
    cases hkind : e.kind with
    | reg size broken => exact absurd hkind (hreg size broken)
    | symlink linkname => exact absurd hkind (hplain linkname)
    | _ => rfl
  | file d place size hkind hd hplace =>
    have hl' := hl.addsDirs hd
    obtain ⟨rfl, hdirs⟩ := freePlace_linkFree hl' hplace
    obtain ⟨_, _, _, hfree, _⟩ := freePlace_eq_some hplace
    refine ⟨fun q t hq ht => ?_, fun _ => ⟨by rw [hkind]; rfl, fun m hm hpre => ?_⟩,
      fun hno => absurd hkind (hno size false)⟩
    · by_cases hqr : q = e.rel
      · rw [hqr, d.put_self] at ht
        cases ht
      · rw [d.put_of_ne .file fun he => hqr (List.append_cancel_left he)] at ht
        exact hl' q t hq ht
    · have hdir := hdirs m hm hpre
      refine (d.put_of_ne .file fun he => ?_).trans hdir
      rw [← he, hdir] at hfree
      cases hfree

theorem leftovers_plain (xs : List α) (hl : LinkFree cfg.dst s.disk.tree)
    (hplain : ∀ x ∈ xs, ∀ name, (f x).kind ≠ .symlink name)
    (hok : (extract cfg s (xs.map f)).2 = none) :
    LinkFree cfg.dst (extract cfg s (xs.map f)).1.disk.tree ∧
      (∀ loc x, (loc, x) ∈ leftovers cfg f s xs ↔
        x ∈ xs ∧ (∃ size broken, (f x).kind = .reg size broken) ∧ loc = cfg.dst ++ (f x).rel) ∧
      ∀ x ∈ xs, (∃ size broken, (f x).kind = .reg size broken) → ∀ m, m ≠ [] →
        m <+: (f x).rel.dropLast → (extract cfg s (xs.map f)).1.disk.tree (cfg.dst ++ m) =
          some .dir := by
  induction xs generalizing s with
  | nil => simpa [extract, leftovers] using hl
  | cons y xs ih =>
    have hturn := extractEntry_turn cfg s (f y)
    rw [List.map_cons, extract] at hok ⊢
    rw [leftovers]
    generalize extractEntry cfg s (f y) = r at hturn hok
    obtain ⟨s', err⟩ := r
    cases err with
    | some err => cases hok
    | none =>
      dsimp only at hok ⊢
      obtain ⟨hl', hreg, hother⟩ := hturn.plain hl (hplain y (List.mem_cons_self ..))
      obtain ⟨hend, hmem, hdirs⟩ := ih hl' (fun x hx => hplain x (List.mem_cons_of_mem _ hx)) hok
      refine ⟨hend, fun loc x => ?_, fun x hx hx' m hm hpre => ?_⟩
      · rw [List.mem_append, hmem, List.mem_cons, or_and_right]
        refine or_congr ?_ Iff.rfl
        by_cases hk : ∃ size broken, (f y).kind = .reg size broken
        · rw [(hreg hk).1, List.map_singleton, List.mem_singleton, Prod.mk.injEq]
          constructor
          · rintro ⟨rfl, rfl⟩
            exact ⟨rfl, hk, rfl⟩
          · rintro ⟨rfl, -, rfl⟩
            exact ⟨rfl, rfl⟩
        · rw [hother fun size broken h => hk ⟨size, broken, h⟩]
          refine iff_of_false (by simp) ?_
          rintro ⟨rfl, hx, -⟩
          exact hk hx
      · rcases List.mem_cons.mp hx with rfl | hx
        · have hdir := (hreg hx').2 m hm hpre
          rw [(extract_leaves cfg f s' xs).kept _ (by simp [hdir]), hdir]
        · exact hdirs x hx hx' m hm hpre

end Plain

end AchProofs.Cli.Extract
