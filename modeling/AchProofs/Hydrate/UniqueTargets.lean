import AchProofs.Hydrate.Commit
import AchProofs.Localpkg.Destination

/-!
Which file-owned writes of the plugins are left once their collisions are resolved, and when no two
of them go to one target. The writes are named by their positions, as in the source's index lists.
-/

namespace AchProofs.Hydrate

variable {α : Type} {policy : Policy} {leafAt : LeafAt} {all all' : List (ProjectedWrite α)}
  {w v : ProjectedWrite α} {i j : ℕ}

theorem claims_iff {t : String} : w.claims t = true ↔ w.fw.merge = .replace ∧ w.fw.path = t := by
  simp [ProjectedWrite.claims]

section Positions

variable {β : Type}

theorem any_take_iff {l : List β} {p : β → Bool} {i : ℕ} :
    (l.take i).any p = true ↔ ∃ k < i, ∃ x, l[k]? = some x ∧ p x = true := by
  rw [List.any_eq_true]
  constructor
  · rintro ⟨x, hx, hp⟩
    obtain ⟨k, hk⟩ := List.mem_iff_getElem?.mp hx
    rw [List.getElem?_take] at hk
    split at hk
    · exact ⟨k, ‹_›, x, hk, hp⟩
    · nomatch hk
  · rintro ⟨k, hk, x, hx, hp⟩
    refine ⟨x, List.mem_iff_getElem?.mpr ⟨k, ?_⟩, hp⟩
    rw [List.getElem?_take_of_lt hk, hx]

theorem any_drop_iff {l : List β} {p : β → Bool} {i : ℕ} :
    (l.drop i).any p = true ↔ ∃ k ≥ i, ∃ x, l[k]? = some x ∧ p x = true := by
  rw [List.any_eq_true]
  constructor
  · rintro ⟨x, hx, hp⟩
    obtain ⟨k, hk⟩ := List.mem_iff_getElem?.mp hx
    rw [List.getElem?_drop] at hk
    exact ⟨i + k, Nat.le_add_right i k, x, hk, hp⟩
  · rintro ⟨k, hk, x, hx, hp⟩
    refine ⟨x, List.mem_iff_getElem?.mpr ⟨k - i, ?_⟩, hp⟩
    rw [List.getElem?_drop, Nat.add_sub_cancel' hk, hx]

theorem take_cons_drop {l : List β} {x : β} {i : ℕ} (h : l[i]? = some x) :
    l.take i ++ x :: l.drop (i + 1) = l := by
  obtain ⟨hi, rfl⟩ := List.getElem?_eq_some_iff.mp h
  rw [List.getElem_cons_drop, List.take_append_drop]

end Positions

def settled (policy : Policy) (leafAt : LeafAt) (all : List (ProjectedWrite α)) (i : ℕ)
    (w : ProjectedWrite α) : ProjectedWrite α :=
  if w.claims w.fw.path && contested all w.fw.path
    then settle policy leafAt (all.take i) w (all.drop (i + 1)) else w

theorem getElem?_settleAll (before : List (ProjectedWrite α)) :
    (settleAll policy leafAt before all)[i]? =
      all[i]?.map (settled policy leafAt (before ++ all) (before.length + i)) := by
  induction all generalizing before i with
  | nil => rfl
  | cons w all ih =>
    cases i with
    | zero => simp [settleAll, settled]
    | succ i =>
      have hb : before ++ w :: all = before ++ [w] ++ all := by simp
      have hi : before.length + (i + 1) = (before ++ [w]).length + i := by simp; omega
      rw [settleAll, List.getElem?_cons_succ, List.getElem?_cons_succ, ih, hb, hi]

theorem getElem?_resolved (h : resolvePluginCollisions policy leafAt all = some all') :
    all'[i]? = all[i]?.map (settled policy leafAt all i) := by
  rw [resolvePluginCollisions] at h
  split at h
  · nomatch h
  · cases h
    simpa using getElem?_settleAll (i := i) []

section Settled

variable (policy leafAt all i w)

theorem settled_eq : ∃ path skipped,
    settled policy leafAt all i w =
      { w with fw := { w.fw with path := path }, skipped := skipped } := by
  rw [settled]
  split
  · cases policy with
    | refuse => exact ⟨_, _, rfl⟩
    | namespaced => exact ⟨_, _, rfl⟩
    | skip => rw [settle]; split <;> exact ⟨_, _, rfl⟩
    | overwrite => rw [settle]; split <;> exact ⟨_, _, rfl⟩
  · exact ⟨_, _, rfl⟩

@[simp]
theorem settled_plugin : (settled policy leafAt all i w).plugin = w.plugin := by
  obtain ⟨_, _, h⟩ := settled_eq policy leafAt all w i
  rw [h]

@[simp]
theorem settled_phantom : (settled policy leafAt all i w).phantom = w.phantom := by
  obtain ⟨_, _, h⟩ := settled_eq policy leafAt all w i
  rw [h]

@[simp]
theorem settled_merge : (settled policy leafAt all i w).fw.merge = w.fw.merge := by
  obtain ⟨_, _, h⟩ := settled_eq policy leafAt all w i
  rw [h]

theorem settled_path : (settled policy leafAt all i w).fw.path =
    if policy = .namespaced ∧ w.claims w.fw.path = true ∧ contested all w.fw.path = true
    then leafAt w.fw.path w.plugin else w.fw.path := by
  rw [settled]
  by_cases hc : w.claims w.fw.path = true ∧ contested all w.fw.path = true
  · rw [if_pos (by simpa using hc)]
    cases policy <;> simp [settle, hc] <;> split <;> rfl
  · rw [if_neg (by simpa using hc), if_neg (fun h => hc h.2)]

end Settled

def Survives (w : ProjectedWrite α) : Prop :=
  w.fw.merge = .replace ∧ w.skipped = false ∧ w.phantom = false

def Staged (w : ProjectedWrite α) : Prop := w.fw.merge = .replace ∧ w.phantom = false

/-- What pass A and the installed plugins hand to the resolution. -/
structure Collected (all : List (ProjectedWrite α)) : Prop where
  unskipped : ∀ w ∈ all, w.skipped = false
  sorted : all.Pairwise fun w v => w.phantom = false → v.phantom = false → w.plugin ≤ v.plugin

def Keeps (policy : Policy) (all : List (ProjectedWrite α)) (w : ProjectedWrite α) : Prop :=
  contested all w.fw.path = true →
    match policy with
    | .refuse => False
    | .namespaced => True
    | .skip => ∀ v ∈ all, v.claims w.fw.path = true → w.plugin ≤ v.plugin
    | .overwrite => ∀ v ∈ all, v.claims w.fw.path = true → v.plugin ≤ w.plugin

/-- Pass B meets no target that a write of another plugin holds already. -/
def ClaimsPass (all : List (ProjectedWrite α)) : Prop :=
  ∀ j p, all[j]? = some p → Survives p →
    (all.take j).any (fun q => !q.skipped && !q.phantom && q.claims p.fw.path && q.plugin ≠
      p.plugin) = false

/-- One round of the resolution loop, for the writes that had the target at first. -/
def resolveTarget (policy : Policy) (leafAt : LeafAt) (all cur : List (ProjectedWrite α))
    (t : String) : Option (List (ProjectedWrite α)) :=
  if contested all t then
    if policy = .refuse || policy = .overwrite && hasPhantom all t then none
    else some (cur.mapIdx fun i c =>
      if all[i]?.any (·.claims t) then settle policy leafAt (all.take i) c (all.drop (i + 1))
        else c)
  else some cur

/-- The loop over the targets, in the order it is given. -/
def resolveLoop (policy : Policy) (leafAt : LeafAt) (all : List (ProjectedWrite α))
    (targets : List String) : Option (List (ProjectedWrite α)) :=
  targets.foldlM (resolveTarget policy leafAt all) all

/-- An enumeration of the targets, each once. -/
structure Enumerates (all : List (ProjectedWrite α)) (targets : List String) : Prop where
  nodup : targets.Nodup
  covers : ∀ w ∈ all, w.fw.merge = .replace → w.fw.path ∈ targets

section Collect

variable {τ : Type} {site : Site α τ} {o : Opts}

theorem Collected.append (h : Collected all) {more : List (ProjectedWrite α)} (hm : Collected more)
    (hle : ∀ w ∈ all, ∀ v ∈ more, v.phantom = false → w.plugin ≤ v.plugin) :
    Collected (all ++ more) where
  unskipped w hw := (List.mem_append.mp hw).elim (h.unskipped w) (hm.unskipped w)
  sorted := List.pairwise_append.mpr
    ⟨h.sorted, hm.sorted, fun w hw v hv _ hvp => hle w hw v hv hvp⟩

theorem collected_map {β : Type} {f : β → ProjectedWrite α} (hf : ∀ x, (f x).skipped = false)
    (hle : ∀ x y, (f x).phantom = false → (f y).phantom = false → (f x).plugin ≤ (f y).plugin)
    (l : List β) : Collected (l.map f) where
  unskipped w hw := by
    obtain ⟨x, -, rfl⟩ := List.mem_map.mp hw
    exact hf x
  sorted := List.pairwise_map.mpr (List.pairwise_of_forall hle)

variable {plugins : List (String × τ)}

theorem collect_parts (h : collect site o plugins = some all) :
    ∃ parts : List (String × List (FileWrite α)),
      parts.map Prod.fst = (plugins.insertionSort fun a b => a.1 ≤ b.1).map Prod.fst ∧
      all = parts.flatMap fun q => q.2.map fun w => ⟨q.1, remapped site o w, false, false⟩ := by
  suffices hloop : ∀ (ps : List (String × τ)) (acc : List (ProjectedWrite α)),
      ps.foldlM (fun all p =>
        if !validSegment p.1 then none
        else (site.projectPlugin p.1 p.2).map fun ws =>
          all ++ ws.map fun w => ⟨p.1, remapped site o w, false, false⟩) acc = some all →
      ∃ parts : List (String × List (FileWrite α)), parts.map Prod.fst = ps.map Prod.fst ∧
        all = acc ++ parts.flatMap fun q => q.2.map fun w =>
          ⟨q.1, remapped site o w, false, false⟩ from
    hloop _ [] h
  intro ps
  induction ps with
  | nil =>
    intro acc h
    cases h
    exact ⟨[], rfl, by simp⟩
  | cons p ps ih =>
    intro acc h
    rw [List.foldlM_cons] at h
    obtain ⟨next, hnext, h⟩ := Option.bind_eq_some_iff.mp h
    split at hnext
    · nomatch hnext
    · obtain ⟨ws, -, rfl⟩ := Option.map_eq_some_iff.mp hnext
      obtain ⟨parts, hnames, rfl⟩ := ih _ h
      exact ⟨(p.1, ws) :: parts, by simp [hnames], by simp⟩

theorem collected_collect (h : collect site o plugins = some all) : Collected all := by
  obtain ⟨parts, hnames, rfl⟩ := collect_parts h
  have hsorted : (parts.map Prod.fst).Pairwise (· ≤ ·) := by
    rw [hnames, List.pairwise_map]
    exact List.pairwise_insertionSort (fun a b : String × τ => a.1 ≤ b.1) plugins
  clear hnames h
  induction parts with
  | nil => exact ⟨by simp, .nil⟩
  | cons p parts ih =>
    rw [List.map_cons, List.pairwise_cons] at hsorted
    rw [List.flatMap_cons]
    refine (collected_map (fun _ => rfl) (fun _ _ _ _ => le_rfl) p.2).append (ih hsorted.2)
      fun w hw v hv _ => ?_
    obtain ⟨_, -, rfl⟩ := List.mem_map.mp hw
    obtain ⟨q, hq, hv⟩ := List.mem_flatMap.mp hv
    obtain ⟨_, -, rfl⟩ := List.mem_map.mp hv
    exact hsorted.1 q.1 (List.mem_map_of_mem hq)

theorem plugin_of_collect (h : collect site o plugins = some all) (hw : w ∈ all) :
    w.plugin ∈ plugins.map Prod.fst := by
  obtain ⟨parts, hnames, rfl⟩ := collect_parts h
  obtain ⟨q, hq, hw⟩ := List.mem_flatMap.mp hw
  obtain ⟨_, -, rfl⟩ := List.mem_map.mp hw
  have hmem := List.mem_map_of_mem (f := Prod.fst) hq
  rw [hnames] at hmem
  obtain ⟨p, hp, hpq⟩ := List.mem_map.mp hmem
  exact List.mem_map.mpr ⟨p, (List.mem_insertionSort _).mp hp, hpq⟩

/-- What a run resolves, with the installed files of other plugins or without them. -/
theorem collected_run (h : collect site o plugins = some all) (rows : List (FileEntry α)) :
    Collected all ∧ Collected (all ++ installedClaims leafAt all rows) := by
  have hclaims : Collected (installedClaims leafAt all rows) :=
    collected_map (fun _ => rfl) (fun _ _ h => Bool.noConfusion h) _
  refine ⟨collected_collect h, (collected_collect h).append hclaims ?_⟩
  intro w _ v hv hvp
  obtain ⟨_, -, rfl⟩ := List.mem_map.mp hv
  nomatch hvp

end Collect

section Order

def Refused (policy : Policy) (all : List (ProjectedWrite α)) (t : String) : Prop :=
  contested all t = true ∧ (policy = .refuse ∨ policy = .overwrite ∧ hasPhantom all t = true)

variable {t : String} {cur : List (ProjectedWrite α)} {targets : List String}

theorem exists_of_contested (h : contested all t = true) :
    ∃ w ∈ all, w.fw.merge = .replace ∧ w.fw.path = t := by
  obtain ⟨w, hw, hc⟩ := List.any_eq_true.mp h
  simp only [Bool.and_eq_true] at hc
  exact ⟨w, hw, claims_iff.mp hc.1⟩

theorem resolve_none_iff :
    resolvePluginCollisions policy leafAt all = none ↔ ∃ t, Refused policy all t := by
  rw [resolvePluginCollisions]
  constructor
  · intro h
    split at h
    · rename_i hany
      obtain ⟨w, -, hw⟩ := List.any_eq_true.mp hany
      exact ⟨w.fw.path, by simpa [Refused] using hw⟩
    · nomatch h
  · rintro ⟨t, hr⟩
    obtain ⟨w, hw, -, rfl⟩ := exists_of_contested hr.1
    rw [if_pos (List.any_eq_true.mpr ⟨w, hw, by simpa [Refused] using hr⟩)]

theorem resolveTarget_refused (h : Refused policy all t) :
    resolveTarget policy leafAt all cur t = none := by
  rw [resolveTarget, if_pos h.1, if_pos (by simpa using h.2)]

theorem resolveLoop_refused (ht : t ∈ targets) (h : Refused policy all t) :
    targets.foldlM (resolveTarget policy leafAt all) cur = none := by
  induction targets generalizing cur with
  | nil => nomatch ht
  | cons s targets ih =>
    rw [List.foldlM_cons]
    rcases List.mem_cons.mp ht with rfl | ht
    · rw [resolveTarget_refused h]
      rfl
    · cases resolveTarget policy leafAt all cur s with
      | none => rfl
      | some next => exact ih ht

/-- The writes after the targets in `done` have been dealt with. -/
def Through (policy : Policy) (leafAt : LeafAt) (all cur : List (ProjectedWrite α))
    (done : List String) : Prop :=
  ∀ i, cur[i]? = all[i]?.map fun w =>
    if w.fw.path ∈ done then settled policy leafAt all i w else w

theorem resolveTarget_through {done : List String} (hcur : Through policy leafAt all cur done)
    (ht : t ∉ done) (h : ¬ Refused policy all t) :
    ∃ next, resolveTarget policy leafAt all cur t = some next ∧
      Through policy leafAt all next (t :: done) := by
  by_cases hc : contested all t = true
  · refine ⟨_, by rw [resolveTarget, if_pos hc, if_neg (fun hr => h ⟨hc, by simpa using hr⟩)], ?_⟩
    intro i
    rw [List.getElem?_mapIdx, hcur i, Option.map_map]
    cases hw : all[i]? with
    | none => rfl
    | some w =>
      simp only [Option.map_some, Function.comp_apply, Option.any_some, List.mem_cons]
      by_cases hp : w.fw.path = t
      · subst hp
        simp only [ht, if_false, true_or, if_true, settled, hc, Bool.and_true]
      · have hclaim : w.claims t = false := by
          rw [Bool.eq_false_iff]
          exact fun h => hp (claims_iff.mp h).2
        simp [hp, hclaim]
  · refine ⟨cur, by rw [resolveTarget, if_neg hc], fun i => ?_⟩
    rw [hcur i]
    refine Option.map_congr fun w _ => ?_
    by_cases hp : w.fw.path = t
    · subst hp
      simp [ht, settled, hc]
    · simp [hp]

theorem resolveLoop_through {done : List String} (hcur : Through policy leafAt all cur done)
    (hd : targets.Nodup) (hnew : ∀ t ∈ targets, t ∉ done) (h : ∀ t, ¬ Refused policy all t) :
    ∃ last, targets.foldlM (resolveTarget policy leafAt all) cur = some last ∧
      Through policy leafAt all last (targets.reverse ++ done) := by
  induction targets generalizing done cur with
  | nil => exact ⟨cur, rfl, hcur⟩
  | cons t targets ih =>
    obtain ⟨next, hnext, hthrough⟩ :=
      resolveTarget_through hcur (hnew t List.mem_cons_self) (h t)
    have hd' := List.nodup_cons.mp hd
    obtain ⟨last, hlast, hfin⟩ := ih hthrough hd'.2 fun s hs hmem => by
      rcases List.mem_cons.mp hmem with rfl | hmem
      · exact hd'.1 hs
      · exact hnew s (List.mem_cons_of_mem _ hs) hmem
    refine ⟨last, ?_, by simpa using hfin⟩
    rw [List.foldlM_cons, hnext]
    exact hlast

/-- The order in which the targets are visited does not matter. -/
theorem resolveLoop_eq (ht : Enumerates all targets) :
    resolveLoop policy leafAt all targets = resolvePluginCollisions policy leafAt all := by
  by_cases hr : ∃ t, Refused policy all t
  · rw [resolve_none_iff.mpr hr]
    obtain ⟨t, hr⟩ := hr
    obtain ⟨w, hw, hm, rfl⟩ := exists_of_contested hr.1
    exact resolveLoop_refused (ht.covers w hw hm) hr
  · cases h : resolvePluginCollisions policy leafAt all with
    | none => exact absurd (resolve_none_iff.mp h) hr
    | some all' =>
      have hstart : Through policy leafAt all all [] := fun i => by simp
      obtain ⟨last, hlast, hfin⟩ :=
        resolveLoop_through hstart ht.nodup (by simp) (fun t hrt => hr ⟨t, hrt⟩)
      rw [resolveLoop, hlast]
      congr 1
      apply List.ext_getElem?
      intro i
      rw [hfin i, getElem?_resolved h]
      refine Option.map_congr fun w hw => ?_
      by_cases hm : w.fw.merge = .replace
      · simp [ht.covers w (List.mem_of_getElem? hw) hm]
      · have hclaim : w.claims w.fw.path = false := by
          rw [Bool.eq_false_iff]
          exact fun h => hm (claims_iff.mp h).1
        simp [settled, hclaim]

end Order

section Kept

theorem getElem?_of_resolved (hres : resolvePluginCollisions policy leafAt all = some all')
    (hw : all[i]? = some w) : all'[i]? = some (settled policy leafAt all i w) := by
  rw [getElem?_resolved hres, hw]
  rfl

theorem exists_of_resolved (hres : resolvePluginCollisions policy leafAt all = some all')
    (hw : all'[i]? = some w) : ∃ u, all[i]? = some u ∧ w = settled policy leafAt all i u := by
  rw [getElem?_resolved hres] at hw
  obtain ⟨u, hu, rfl⟩ := Option.map_eq_some_iff.mp hw
  exact ⟨u, hu, rfl⟩

theorem skipped_ite (hs : w.skipped = false) (b : Bool) :
    (if b then { w with skipped := true } else w).skipped = b := by
  cases b with
  | false => exact hs
  | true => rfl

/-- The writes that a policy drops: those that an earlier or an installed one comes before, or those
that a later one comes after. -/
theorem settled_skipped_iff (hw : all[i]? = some w) (hs : w.skipped = false)
    (hm : w.fw.merge = .replace) :
    (settled policy leafAt all i w).skipped = true ↔ contested all w.fw.path = true ∧
      (policy = .skip ∧ (hasPhantom all w.fw.path = true ∨
          ∃ k < i, ∃ v, all[k]? = some v ∧ v.claims w.fw.path = true) ∨
        policy = .overwrite ∧ ∃ k > i, ∃ v, all[k]? = some v ∧ v.claims w.fw.path = true) := by
  have hclaim : w.claims w.fw.path = true := claims_iff.mpr ⟨hm, rfl⟩
  rw [settled, hclaim, Bool.true_and]
  by_cases hc : contested all w.fw.path = true
  · rw [if_pos hc]
    cases policy with
    | refuse => simp [settle, hs]
    | namespaced => simp [settle, hs]
    | skip =>
      rw [settle, take_cons_drop hw, skipped_ite hs, Bool.or_eq_true, any_take_iff]
      simp only [hc, true_and, reduceCtorEq, false_and, or_false]
    | overwrite =>
      rw [settle, skipped_ite hs, any_drop_iff]
      simp only [hc, true_and, reduceCtorEq, false_and, false_or, ge_iff_le, Nat.succ_le_iff,
        gt_iff_lt]
  · rw [if_neg hc]
    simp [hc, hs]

end Kept

section Main

/-- The source's reading of the resolution. -/
structure Resolved (policy : Policy) (leafAt : LeafAt) (all all' : List (ProjectedWrite α)) :
    Prop where
  unique : ∀ (i j : ℕ) w v, i ≠ j → all'[i]? = some w → all'[j]? = some v → Survives w →
    Survives v →
    w.fw.path ≠ v.fw.path
  kept : ∀ (i : ℕ) w w', all[i]? = some w → all'[i]? = some w' → Staged w →
    (w'.skipped = false ↔ Keeps policy all w)
  anyOrder : ∀ targets, Enumerates all targets → resolveLoop policy leafAt all targets = some all'

/-- No plugin has two files for one place, whether as projected or as renamed, and a file that is
installed comes before those that collide with it. -/
structure Separable (policy : Policy) (leafAt : LeafAt) (all : List (ProjectedWrite α)) : Prop where
  single : ∀ (i j : ℕ) w v, i ≠ j → all[i]? = some w → all[j]? = some v → Staged w → Staged v →
    w.plugin = v.plugin → w.fw.path = v.fw.path → ¬ Keeps policy all w
  moved : policy = .namespaced → ∀ (i j : ℕ) w v, all[i]? = some w → all[j]? = some v → Staged w →
    Staged v →
    w.plugin = v.plugin → w.fw.path ≠ v.fw.path →
    (if contested all w.fw.path then leafAt w.fw.path w.plugin else w.fw.path) ≠
      (if contested all v.fw.path then leafAt v.fw.path v.plugin else v.fw.path)
  incumbent : policy = .skip → ∀ w ∈ all, Staged w → contested all w.fw.path = true →
    hasPhantom all w.fw.path = true → ¬ Keeps policy all w

theorem plugin_le_of_lt (hc : Collected all) (hij : i < j) (hw : all[i]? = some w)
    (hv : all[j]? = some v) (hwp : w.phantom = false) (hvp : v.phantom = false) :
    w.plugin ≤ v.plugin := by
  obtain ⟨hi, rfl⟩ := List.getElem?_eq_some_iff.mp hw
  obtain ⟨hj, rfl⟩ := List.getElem?_eq_some_iff.mp hv
  exact List.pairwise_iff_getElem.mp hc.sorted i j hi hj hij hwp hvp

theorem not_phantom_of_claims {t : String} (hp : hasPhantom all t ≠ true) (hv : v ∈ all)
    (hclaim : v.claims t = true) : v.phantom = false := by
  rw [Bool.eq_false_iff]
  exact fun h => hp (List.any_eq_true.mpr ⟨v, hv, by simp [hclaim, h]⟩)

variable (hc : Collected all) (hres : resolvePluginCollisions policy leafAt all = some all')

theorem not_refused (hres : resolvePluginCollisions policy leafAt all = some all') (t : String) :
    ¬ Refused policy all t := by
  intro h
  rw [resolve_none_iff.mpr ⟨t, h⟩] at hres
  nomatch hres

include hc hres in
theorem kept_of_separable (hsep : Separable policy leafAt all) (hw : all[i]? = some w)
    (hst : Staged w) :
    (settled policy leafAt all i w).skipped = false ↔ Keeps policy all w := by
  have hmem : w ∈ all := List.mem_of_getElem? hw
  have hself : w.claims w.fw.path = true := claims_iff.mpr ⟨hst.1, rfl⟩
  rw [← Bool.not_eq_true, settled_skipped_iff hw (hc.unskipped w hmem) hst.1]
  by_cases hcon : contested all w.fw.path = true
  · -- another write of the same plugin at the target contradicts `single`
    have hother : Keeps policy all w → ∀ k, k ≠ i → ∀ v, all[k]? = some v →
        v.claims w.fw.path = true → v.phantom = false → v.plugin ≠ w.plugin :=
      fun hk k hki v hv hclaim hph heq =>
        hsep.single i k w v (Ne.symm hki) hw hv hst ⟨(claims_iff.mp hclaim).1, hph⟩ heq.symm
          (claims_iff.mp hclaim).2.symm hk
    cases policy with
    | refuse => exact absurd ⟨hcon, .inl rfl⟩ (not_refused hres w.fw.path)
    | namespaced => simp [Keeps]
    | skip =>
      by_cases hp : hasPhantom all w.fw.path = true
      · have hnot := hsep.incumbent rfl w hmem hst hcon hp
        simp [hcon, hp, hnot]
      · simp only [hcon, hp, true_and, false_or, reduceCtorEq, false_and, or_false]
        constructor
        · intro hnone _ v hv hclaim
          obtain ⟨k, hk⟩ := List.mem_iff_getElem?.mp hv
          rcases lt_trichotomy k i with hki | rfl | hik
          · exact absurd ⟨k, hki, v, hk, hclaim⟩ hnone
          · rw [hw] at hk
            cases hk
            exact le_rfl
          · exact plugin_le_of_lt hc hik hw hk hst.2 (not_phantom_of_claims hp hv hclaim)
        · rintro hk ⟨k, hki, v, hv, hclaim⟩
          have hph := not_phantom_of_claims hp (List.mem_of_getElem? hv) hclaim
          exact hother hk k hki.ne v hv hclaim hph
            (le_antisymm (plugin_le_of_lt hc hki hv hw hph hst.2)
              (hk hcon v (List.mem_of_getElem? hv) hclaim))
    | overwrite =>
      have hp : hasPhantom all w.fw.path ≠ true :=
        fun hp => not_refused hres w.fw.path ⟨hcon, .inr ⟨rfl, hp⟩⟩
      simp only [hcon, true_and, false_or, reduceCtorEq, false_and]
      constructor
      · intro hnone _ v hv hclaim
        obtain ⟨k, hk⟩ := List.mem_iff_getElem?.mp hv
        rcases lt_trichotomy k i with hki | rfl | hik
        · exact plugin_le_of_lt hc hki hk hw (not_phantom_of_claims hp hv hclaim) hst.2
        · rw [hw] at hk
          cases hk
          exact le_rfl
        · exact absurd ⟨k, hik, v, hk, hclaim⟩ hnone
      · rintro hk ⟨k, hik, v, hv, hclaim⟩
        have hph := not_phantom_of_claims hp (List.mem_of_getElem? hv) hclaim
        exact hother hk k hik.ne' v hv hclaim hph
          (le_antisymm (hk hcon v (List.mem_of_getElem? hv) hclaim)
            (plugin_le_of_lt hc hik hw hv hst.2 hph))
  · simp [hcon, Keeps]

theorem Staged.survives (h : Staged w) (hk : (settled policy leafAt all i w).skipped = false) :
    Survives (settled policy leafAt all i w) :=
  ⟨by rw [settled_merge, h.1], hk, by rw [settled_phantom, h.2]⟩

theorem Survives.staged (h : Survives (settled policy leafAt all i w)) : Staged w :=
  ⟨by rw [← h.1, settled_merge], by rw [← h.2.2, settled_phantom]⟩

theorem keeps_congr (hp : w.plugin = v.plugin) (ht : w.fw.path = v.fw.path) :
    Keeps policy all w ↔ Keeps policy all v := by
  simp only [Keeps, hp, ht]

theorem Staged.settled_path_namespaced (h : Staged w) :
    (settled .namespaced leafAt all i w).fw.path =
      if contested all w.fw.path then leafAt w.fw.path w.plugin else w.fw.path := by
  have hself : w.claims w.fw.path = true := claims_iff.mpr ⟨h.1, rfl⟩
  simp [settled_path, hself]

theorem plugin_eq_of_claimsPass {i j : ℕ} (h : ClaimsPass all) (hij : i < j) (hi : all[i]? = some w)
    (hj : all[j]? = some v) (hw : Survives w) (hv : Survives v) (hp : w.fw.path = v.fw.path) :
    w.plugin = v.plugin := by
  by_contra hne
  have hfalse := h j v hj hv
  rw [Bool.eq_false_iff] at hfalse
  refine hfalse (any_take_iff.mpr ⟨i, hij, w, hi, ?_⟩)
  simp [hw.2.1, hw.2.2, claims_iff.mpr ⟨hw.1, hp⟩, hne]

include hc hres in
theorem unique_of_separable (hsep : Separable policy leafAt all) (hpass : ClaimsPass all')
    (hij : i < j) (hi : all'[i]? = some w) (hj : all'[j]? = some v) (hw : Survives w)
    (hv : Survives v) : w.fw.path ≠ v.fw.path := by
  intro hp
  have hplugin := plugin_eq_of_claimsPass hpass hij hi hj hw hv hp
  obtain ⟨w, hwi, rfl⟩ := exists_of_resolved hres hi
  obtain ⟨v, hvj, rfl⟩ := exists_of_resolved hres hj
  rw [settled_plugin, settled_plugin] at hplugin
  by_cases ho : w.fw.path = v.fw.path
  · exact hsep.single i j w v hij.ne hwi hvj hw.staged hv.staged hplugin ho
      ((kept_of_separable hc hres hsep hwi hw.staged).mp hw.2.1)
  · by_cases hn : policy = .namespaced
    · subst hn
      rw [hw.staged.settled_path_namespaced, hv.staged.settled_path_namespaced] at hp
      exact hsep.moved rfl i j w v hwi hvj hw.staged hv.staged hplugin ho hp
    · rw [settled_path, settled_path, if_neg (fun h => hn h.1), if_neg (fun h => hn h.1)] at hp
      exact ho hp

theorem resolved_of_separable (hc : Collected all)
    (hres : resolvePluginCollisions policy leafAt all = some all') (hpass : ClaimsPass all')
    (hsep : Separable policy leafAt all) : Resolved policy leafAt all all' where
  unique i j w v hij hi hj hw hv := by
    rcases lt_or_gt_of_ne hij with hlt | hgt
    · exact unique_of_separable hc hres hsep hpass hlt hi hj hw hv
    · exact (unique_of_separable hc hres hsep hpass hgt hj hi hv hw).symm
  kept i w w' hi hi' hst := by
    rw [getElem?_of_resolved hres hi] at hi'
    cases hi'
    exact kept_of_separable hc hres hsep hi hst
  anyOrder targets ht := by rw [resolveLoop_eq ht, hres]

theorem separable_of_resolved (hc : Collected all)
    (hres : resolvePluginCollisions policy leafAt all = some all')
    (h : Resolved policy leafAt all all') : Separable policy leafAt all := by
  -- two writes that the policy keeps are published at different paths
  have hkept : ∀ {i j w v}, i ≠ j → all[i]? = some w → all[j]? = some v → Staged w → Staged v →
      Keeps policy all w → Keeps policy all v →
      (settled policy leafAt all i w).fw.path ≠ (settled policy leafAt all j v).fw.path := by
    intro i j w v hij hi hj hw hv hkw hkv
    have hi' := getElem?_of_resolved hres hi
    have hj' := getElem?_of_resolved hres hj
    exact h.unique i j _ _ hij hi' hj' (hw.survives ((h.kept i w _ hi hi' hw).mpr hkw))
      (hv.survives ((h.kept j v _ hj hj' hv).mpr hkv))
  refine ⟨fun i j w v hij hi hj hw hv hp ht hk => ?_, ?_, ?_⟩
  · refine hkept hij hi hj hw hv hk ((keeps_congr hp ht).mp hk) ?_
    have hcw : w.claims w.fw.path = true := claims_iff.mpr ⟨hw.1, rfl⟩
    have hcv : v.claims v.fw.path = true := claims_iff.mpr ⟨hv.1, rfl⟩
    rw [settled_path, settled_path, hcw, hcv, hp, ht]
  · rintro rfl i j w v hi hj hw hv hp ht
    have hij : i ≠ j := by
      rintro rfl
      rw [hi] at hj
      cases hj
      exact ht rfl
    rw [← hw.settled_path_namespaced (i := i), ← hv.settled_path_namespaced (i := j)]
    exact hkept hij hi hj hw hv (fun _ => trivial) (fun _ => trivial)
  · rintro rfl w hmem hw hcon hp hk
    obtain ⟨i, hi⟩ := List.mem_iff_getElem?.mp hmem
    have hun := (h.kept i w _ hi (getElem?_of_resolved hres hi) hw).mpr hk
    have hskip : (settled .skip leafAt all i w).skipped = true :=
      (settled_skipped_iff hi (hc.unskipped w hmem) hw.1).mpr ⟨hcon, .inl ⟨rfl, .inl hp⟩⟩
    rw [hun] at hskip
    nomatch hskip

/-- The files that the plugins publish are at different targets, and the policy decides which of
them are kept, exactly when no plugin brings two files to one place. -/
theorem resolved_iff_separable (hc : Collected all)
    (hres : resolvePluginCollisions policy leafAt all = some all') (hpass : ClaimsPass all') :
    Resolved policy leafAt all all' ↔ Separable policy leafAt all :=
  ⟨separable_of_resolved hc hres, resolved_of_separable hc hres hpass⟩

theorem separable_of_nodup (h : (all.map ProjectedWrite.plugin).Nodup) (hp : policy ≠ .skip) :
    Separable policy leafAt all := by
  have hsame : ∀ {i j : ℕ} {w v}, all[i]? = some w → all[j]? = some v → w.plugin = v.plugin →
    i = j := by
    intro i j w v hi hj heq
    obtain ⟨hlt, -⟩ := List.getElem?_eq_some_iff.mp hi
    refine (List.getElem?_inj (by simpa using hlt) h).mp ?_
    rw [List.getElem?_map, List.getElem?_map, hi, hj, Option.map_some, Option.map_some, heq]
  refine ⟨fun i j w v hij hi hj _ _ heq => absurd (hsame hi hj heq) hij, ?_, fun h => absurd h hp⟩
  rintro - i j w v hi hj - - heq hne
  cases hsame hi hj heq
  rw [hi] at hj
  cases hj
  exact absurd rfl hne

end Main

section Instances

open Localpkg.Install

def agent (plugin path : String) : ProjectedWrite Unit :=
  ⟨plugin, ⟨path, .replace, .text [], [], none⟩, false, false⟩

def twoPlugins : List (ProjectedWrite Unit) :=
  [agent "x" "agents/foo.md", agent "y" "agents/foo.md"]

theorem two_plugins_kept_apart :
    Resolved .namespaced (leafAtRoot "/work") twoPlugins
      [agent "x" "agents/x-foo.md", agent "y" "agents/y-foo.md"] := by
  refine (resolved_iff_separable ⟨by simp [twoPlugins, agent], ?_⟩ rfl ?_).mpr
    (separable_of_nodup (by decide) nofun)
  · simp [twoPlugins, agent]
  · rintro (_ | _ | j) p hp -
    · cases hp
      rfl
    · cases hp
      decide
    · nomatch hp

def renamedOnto : List (ProjectedWrite Unit) :=
  [agent "x" "agents/foo.md", agent "x" "agents/x-foo.md", agent "y" "agents/foo.md"]

theorem renamed_file_shares_target :
    Collected renamedOnto ∧
      ∃ all', resolvePluginCollisions .namespaced (leafAtRoot "/work") renamedOnto =
      some all' ∧ ClaimsPass all' ∧
        ¬ Resolved .namespaced (leafAtRoot "/work") renamedOnto all' := by
  refine ⟨⟨by simp [renamedOnto, agent], ?_⟩, [agent "x" "agents/x-foo.md",
    agent "x" "agents/x-foo.md", agent "y" "agents/y-foo.md"], rfl, ?_, ?_⟩
  · simp [renamedOnto, agent]
  · rintro (_ | _ | _ | j) p hp -
    · cases hp
      rfl
    · cases hp
      decide
    · cases hp
      decide
    · nomatch hp
  · intro h
    exact h.unique 0 1 _ _ (by decide) rfl rfl ⟨rfl, rfl, rfl⟩ ⟨rfl, rfl, rfl⟩ rfl

end Instances

end AchProofs.Hydrate
