import AchProofs.Localpkg.InstallEffect

namespace AchProofs.Localpkg.Install

open Hydrate

variable {α : Type} {word : Char → Bool} {disk disk' : Disk α} {h : History}
  {rows : Set (FileEntry α)} {m : Set Item} {root name : String}

def filesRows (root : String) (fs : List (FileRec α)) : Set (FileEntry α) :=
  {r | ∃ f ∈ fs, f.row root = r}

theorem filesRows_nil (root : String) : filesRows root ([] : List (FileRec α)) = ∅ := by
  ext r
  simp [filesRows]

theorem filesRows_cons (root : String) (f : FileRec α) (fs : List (FileRec α)) :
    filesRows root (f :: fs) = insert (f.row root) (filesRows root fs) := by
  ext r
  simp [filesRows, eq_comm]

def itemsOf (rows : Set (FileEntry α)) : Set Item := {i | ∃ r ∈ rows, i ∈ r.items}

theorem note_append (h : History) (a b : List (FileWrite α)) :
    (h.note a).note b = h.note (a ++ b) := by
  simp [History.note]

theorem uninstallLoop_spec [DecidableEq α] {stuck : String → Bool} (hstuck : ∀ p, stuck p = false)
    (fault : Option ℕ) {fs : List (FileRec α)} (hc : Covers disk h (filesRows root fs ∪ rows)) :
    Moved disk (uninstallLoop word stuck root fault disk fs).1 (itemsOf (filesRows root fs)) ∧
      ((uninstallLoop word stuck root fault disk fs).2 = true →
        Covers (uninstallLoop word stuck root fault disk fs).1 h rows) ∧
      ∃ rest ⊆ filesRows root fs ∪ rows,
        Covers (uninstallLoop word stuck root fault disk fs).1 h rest := by
  induction fs generalizing disk fault with
  | nil =>
    rw [filesRows_nil, Set.empty_union] at hc ⊢
    exact ⟨.refl disk _, fun _ => hc, rows, subset_rfl, hc⟩
  | cons f fs ih =>
    rw [uninstallLoop]
    split_ifs with hfault
    · exact ⟨.refl disk _, nofun, _, subset_rfl, hc⟩
    · rw [filesRows_cons, Set.insert_union] at hc ⊢
      have hmem : f.row root ∈ insert (f.row root) (filesRows root fs ∪ rows) := Set.mem_insert ..
      obtain ⟨hmoved, -⟩ := uninstallOne_spec hstuck word (hc.orderly _ hmem) (hc.named _ hmem)
      obtain ⟨hrest, hdone, rest, hsub, hleft⟩ := ih (fault.map (· - 1)) (hc.uninstall hstuck)
      refine ⟨(hmoved.mono ?_).trans (hrest.mono ?_), hdone, rest,
        hsub.trans (Set.subset_insert ..), hleft⟩
      · exact fun i hi => ⟨f.row root, Set.mem_insert .., hi⟩
      · rintro i ⟨r, hr, hi⟩
        exact ⟨r, .inr hr, hi⟩

theorem uninstall_spec [DecidableEq α] (word : Char → Bool) (contained : String → Bool)
    {stuck : String → Bool} {sc : Scope} (hstuck : ∀ p, stuck p = false) (fault : Option ℕ)
    {fs : List (FileRec α)}
    (hc : Covers disk h (filesRows sc.root fs ∪ rows)) :
    Moved disk (uninstall word contained stuck sc fault disk fs).1
      (itemsOf (filesRows sc.root fs)) ∧
      ((uninstall word contained stuck sc fault disk fs).2 = true →
        Covers (uninstall word contained stuck sc fault disk fs).1 h rows) ∧
      ∃ rest ⊆ filesRows sc.root fs ∪ rows,
        Covers (uninstall word contained stuck sc fault disk fs).1 h rest := by
  unfold uninstall
  split_ifs with hcheck
  · exact uninstallLoop_spec hstuck fault hc
  · exact ⟨.refl disk _, nofun, _, subset_rfl, hc⟩

theorem commitLoop_spec {ws : List (FileWrite α)} (hc : Covers disk h rows)
    (hready : ∀ w ∈ ws, Ready word disk (landing root name w))
    (hsub : ∀ w ∈ ws, ∀ i ∈ (landing root name w).items, i ∈ m)
    (hf : ∀ i, i ∈ h.wrote ∨ i ∈ m → ∀ j ∈ m, Friendly i j) :
    ∃ disk' recs, commitLoop word root name none disk ws =
        ⟨disk', ws.map (landing root name), some recs⟩ ∧ recs.length = ws.length ∧
      Moved disk disk' m ∧
        Covers disk' (h.note (ws.map (landing root name))) (filesRows root recs ∪ rows) := by
  induction ws generalizing disk h rows with
  | nil =>
    refine ⟨disk, [], rfl, rfl, .refl disk m, ?_⟩
    rw [filesRows_nil, Set.empty_union]
    simpa [History.note] using hc
  | cons w ws ih =>
    have hw := hready w (List.mem_cons_self ..)
    have hwm := hsub w (List.mem_cons_self ..)
    obtain ⟨disk₁, hwrite, hnear, ho, hcur⟩ := hw.lands
    have hmoved : Moved disk disk₁ m := hnear.mono hwm
    have hland : Covers disk₁ (h.note [landing root name w])
        (insert ((recOf disk₁ root name w).row root) rows) :=
      hc.land hnear ho hcur hw.suits
        (fun i hi j hj => hf i ((List.mem_append.mp hi).imp_right (hwm i)) j (hwm j hj))
    have hready₁ : ∀ w' ∈ ws, Ready word disk₁ (landing root name w') := by
      intro w' hw'
      have hw'm := hsub w' (List.mem_cons_of_mem _ hw')
      exact (hready w' (List.mem_cons_of_mem _ hw')).moved hmoved
        (fun i hi j hj => hf i (.inr (hw'm i hi)) j hj)
    have hf₁ : ∀ i, i ∈ (h.note [landing root name w]).wrote ∨ i ∈ m → ∀ j ∈ m, Friendly i j := by
      intro i hi
      refine hf i (hi.elim (fun hi => ?_) .inr)
      simp only [History.note, List.flatMap_cons, List.flatMap_nil, List.append_nil] at hi
      exact (List.mem_append.mp hi).imp_right (hwm i)
    obtain ⟨disk', recs, hloop, hlen, hrest, hcov⟩ := ih hland hready₁
      (fun w' hw' => hsub w' (List.mem_cons_of_mem _ hw')) hf₁
    refine ⟨disk', recOf disk₁ root name w :: recs, ?_,
      by rw [List.length_cons, hlen, List.length_cons], hmoved.trans hrest, ?_⟩
    · simp only [commitLoop, hwrite, Option.map_none, hloop, List.map_cons, reduceCtorEq, if_false,
        Option.map_some]
    · rw [note_append] at hcov
      rw [filesRows_cons, Set.insert_union, ← Set.union_insert]
      exact hcov

def planItems (root name : String) (ws : List (FileWrite α)) : Set Item :=
  {i | ∃ w ∈ ws, i ∈ (landing root name w).items}

/-- What the writes of a commit do: every one lands and has its row, and their own rows answer for
all they wrote. -/
structure Commits (root name : String) (disk disk' : Disk α) (h : History)
    (rows : Set (FileEntry α)) (m : Set Item) (ws : List (FileWrite α)) (recs : List (FileRec α)) :
    Prop where
  length : recs.length = ws.length
  moved : Moved disk disk' m
  covers : Covers disk' (h.note (ws.map (landing root name))) (filesRows root recs ∪ rows)
  own : ∀ i ∈ planItems root name ws, look disk' i ≠ none →
    ∃ r ∈ filesRows root recs, i ∈ r.items ∧ Current disk' r

theorem commit_spec (contained : String → Bool) {sc : Scope} {fault : Option Fault}
    {ws : List (FileWrite α)} (hfault : fault = none ∨ fault = some ⟨0, false⟩)
    (hc : Covers disk h rows) (hready : ∀ w ∈ ws, Ready word disk (landing sc.root name w))
    (hsub : planItems sc.root name ws ⊆ m) (hf : ∀ i, i ∈ h.wrote ∨ i ∈ m → ∀ j ∈ m, Friendly i j) :
    commit word contained sc name fault disk ws = ⟨disk, [], none⟩ ∨
      ∃ disk' recs, commit word contained sc name fault disk ws =
          ⟨disk', ws.map (landing sc.root name), some recs⟩ ∧
        Commits sc.root name disk disk' h rows m ws recs := by
  have hsub' : ∀ w ∈ ws, ∀ i ∈ (landing sc.root name w).items, i ∈ m :=
    fun w hw i hi => hsub ⟨w, hw, hi⟩
  -- without a history and other rows, the rows of the commit answer for its items alone
  have hown : Covers disk { h with kept := [] } ∅ :=
    ⟨nofun, nofun, nofun, nofun, nofun, hc.friendly⟩
  have hloop : ∃ disk' recs, commitLoop word sc.root name none disk ws =
      ⟨disk', ws.map (landing sc.root name), some recs⟩ ∧
        Commits sc.root name disk disk' h rows m ws recs := by
    obtain ⟨disk', recs, hrun, hlen, hmoved, hcov⟩ := commitLoop_spec hc hready hsub' hf
    obtain ⟨disk₁, recs₁, hrun₁, -, -, hcov₁⟩ := commitLoop_spec hown hready hsub' hf
    cases hrun.symm.trans hrun₁
    refine ⟨disk', recs, hrun, hlen, hmoved, hcov, fun i hi hl => ?_⟩
    obtain ⟨w, hw, hi⟩ := hi
    rw [Set.union_empty] at hcov₁
    refine hcov₁.covered i ?_ hl
    simp only [History.note, List.nil_append, List.mem_flatMap, List.mem_map]
    exact ⟨_, ⟨w, hw, rfl⟩, hi⟩
  unfold commit
  split_ifs with hcheck
  · rcases hfault with rfl | rfl
    · exact .inr hloop
    · cases ws with
      | nil => exact .inr hloop
      | cons w ws => exact .inl (by rw [commitLoop, if_pos rfl])
  · exact .inl rfl

section Entries

variable {es : List (Entry α)} {new : Entry α} {home : Key → Scope} {sc : Scope}

/-- The rows of `installed.json`, each where its entry was last installed to. -/
def rowsOf (home : Key → Scope) (es : List (Entry α)) : Set (FileEntry α) :=
  {r | ∃ e ∈ es, r ∈ filesRows (home e.key).root e.files}

def othersOf (home : Key → Scope) (es : List (Entry α)) (k : Key) : Set (FileEntry α) :=
  rowsOf home (es.filter fun e => e.key ≠ k)

theorem othersOf_subset (home : Key → Scope) (es : List (Entry α)) (k : Key) :
    othersOf home es k ⊆ rowsOf home es := by
  rintro r ⟨e, he, hr⟩
  exact ⟨e, List.mem_of_mem_filter he, hr⟩

theorem mem_upsert (hu : (es.map Entry.key).Nodup) {e : Entry α} :
    e ∈ upsertInstalled es new ↔ e = new ∨ e ∈ es ∧ e.key ≠ new.key := by
  induction es with
  | nil => simp [upsertInstalled]
  | cons c es ih =>
    rw [List.map_cons, List.nodup_cons] at hu
    rw [upsertInstalled]
    split_ifs with hk
    · -- the others have other keys
      have hother : ∀ e ∈ es, e.key ≠ new.key := fun e he heq =>
        hu.1 (hk.trans heq.symm ▸ List.mem_map_of_mem he)
      constructor
      · intro he
        exact (List.mem_cons.mp he).imp_right (fun he => ⟨List.mem_cons_of_mem _ he, hother e he⟩)
      · rintro (rfl | ⟨he, hne⟩)
        · exact List.mem_cons_self ..
        · rcases List.mem_cons.mp he with rfl | he
          · exact absurd hk hne
          · exact List.mem_cons_of_mem _ he
    · rw [List.mem_cons, ih hu.2, List.mem_cons]
      constructor
      · rintro (rfl | rfl | ⟨he, hne⟩)
        · exact .inr ⟨.inl rfl, hk⟩
        · exact .inl rfl
        · exact .inr ⟨.inr he, hne⟩
      · rintro (rfl | ⟨rfl | he, hne⟩)
        · exact .inr (.inl rfl)
        · exact .inl rfl
        · exact .inr (.inr ⟨he, hne⟩)

theorem nodup_upsert (hu : (es.map Entry.key).Nodup) :
    ((upsertInstalled es new).map Entry.key).Nodup := by
  induction es with
  | nil => simp [upsertInstalled]
  | cons c es ih =>
    have hu' := hu
    rw [List.map_cons, List.nodup_cons] at hu
    rw [upsertInstalled]
    split_ifs with hk
    · rwa [List.map_cons, ← hk]
    · rw [List.map_cons, List.nodup_cons]
      refine ⟨fun hmem => ?_, ih hu.2⟩
      obtain ⟨e, he, heq⟩ := List.mem_map.mp hmem
      rcases (mem_upsert hu.2).mp he with rfl | ⟨he, -⟩
      · exact hk heq.symm
      · exact hu.1 (heq ▸ List.mem_map_of_mem he)

theorem rowsOf_upsert (hu : (es.map Entry.key).Nodup) :
    rowsOf (Function.update home new.key sc) (upsertInstalled es new) =
      filesRows sc.root new.files ∪ othersOf home es new.key := by
  ext r
  constructor
  · rintro ⟨e, he, hr⟩
    rcases (mem_upsert hu).mp he with rfl | ⟨he, hne⟩
    · rw [Function.update_self] at hr
      exact .inl hr
    · rw [Function.update_of_ne hne] at hr
      exact .inr ⟨e, List.mem_filter.mpr ⟨he, by simpa using hne⟩, hr⟩
  · rintro (hr | ⟨e, he, hr⟩)
    · exact ⟨new, (mem_upsert hu).mpr (.inl rfl), by rwa [Function.update_self]⟩
    · obtain ⟨he, hne⟩ := List.mem_filter.mp he
      have hne : e.key ≠ new.key := by simpa using hne
      exact ⟨e, (mem_upsert hu).mpr (.inr ⟨he, hne⟩), by rwa [Function.update_of_ne hne]⟩

/-- `installed.json` has one entry for a key, and its rows answer for what the commands wrote. -/
structure Tracks (disk : Disk α) (h : History) (es : List (Entry α)) : Prop where
  unique : (es.map Entry.key).Nodup
  parsed : ∀ e ∈ es, '@' ∈ e.key.ref.toList
  covers : Covers disk h (rowsOf h.home es)

theorem Covers.rehome (hc : Covers disk h rows) (home : Key → Scope) :
    Covers disk { h with home := home } rows :=
  ⟨hc.orderly, hc.named, hc.wrote, hc.covered, hc.kept, hc.friendly⟩

theorem tracks_record (hu : (es.map Entry.key).Nodup) (hp : ∀ e ∈ es, '@' ∈ e.key.ref.toList)
    (hnew : '@' ∈ new.key.ref.toList)
    (hc : Covers disk h (filesRows sc.root new.files ∪ othersOf h.home es new.key)) :
    Tracks disk { h with home := Function.update h.home new.key sc } (upsertInstalled es new) := by
  refine ⟨nodup_upsert hu, fun e he => ?_, ?_⟩
  · rcases (mem_upsert hu).mp he with rfl | ⟨he, -⟩
    · exact hnew
    · exact hp e he
  · rw [rowsOf_upsert hu]
    exact hc.rehome _

theorem rowsOf_mono {es' : List (Entry α)} (hsub : ∀ e ∈ es, e ∈ es') :
    rowsOf home es ⊆ rowsOf home es' := by
  rintro r ⟨e, he, hr⟩
  exact ⟨e, hsub e he, hr⟩

theorem rowsOf_cons (home : Key → Scope) (e : Entry α) (es : List (Entry α)) :
    rowsOf home (e :: es) = filesRows (home e.key).root e.files ∪ rowsOf home es := by
  ext r
  simp [rowsOf]

theorem rowsOf_filter (home : Key → Scope) (es : List (Entry α)) (p : Entry α → Bool) :
    rowsOf home es = rowsOf home (es.filter p) ∪ rowsOf home (es.filter fun e => !p e) := by
  ext r
  constructor
  · rintro ⟨e, he, hr⟩
    cases hp : p e with
    | true => exact .inl ⟨e, List.mem_filter.mpr ⟨he, hp⟩, hr⟩
    | false => exact .inr ⟨e, List.mem_filter.mpr ⟨he, by rw [hp]; rfl⟩, hr⟩
  · rintro (⟨e, he, hr⟩ | ⟨e, he, hr⟩) <;> exact ⟨e, List.mem_of_mem_filter he, hr⟩

theorem rowsOf_split {e : Entry α} (home : Key → Scope) (hu : (es.map Entry.key).Nodup)
    (he : e ∈ es) :
    rowsOf home es = filesRows (home e.key).root e.files ∪ othersOf home es e.key := by
  ext r
  constructor
  · rintro ⟨c, hc, hr⟩
    by_cases hk : c.key = e.key
    · obtain rfl := List.inj_on_of_nodup_map hu hc he hk
      exact .inl hr
    · exact .inr ⟨c, List.mem_filter.mpr ⟨hc, by simpa using hk⟩, hr⟩
  · rintro (hr | hr)
    · exact ⟨e, he, hr⟩
    · exact othersOf_subset home es e.key hr

theorem Tracks.shrink (ht : Tracks disk h es) (hm : Moved disk disk' m) (hw : ∀ i ∈ m, i ∈ h.wrote)
    (hc : Covers disk' h rows) (hsub : rows ⊆ rowsOf h.home es) : Tracks disk' h es := by
  refine ⟨ht.unique, ht.parsed, hc.mono hsub (fun r hr => ?_) ht.covers.named ht.covers.wrote⟩
  exact hm.orderly r (ht.covers.orderly r hr)
    (fun i hi j hj => ht.covers.friendly i (ht.covers.wrote r hr i hi) j (hw j hj))

end Entries

end AchProofs.Localpkg.Install
