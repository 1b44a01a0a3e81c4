import AchProofs.Hydrate.DryRun
import AchProofs.Hydrate.UniqueTargets

/-!
Runs with `--only`: which rows of a state belong to the item, and which rows an installation or an
uninstallation of the item replaces. A skill may be staged under a name with a prefix, and its rows
are looked for under another prefix, the environment's name; so a row's source does not tell whose
row it is.
-/

namespace AchProofs.Hydrate

variable {α τ : Type}

section Rows

/-- A row with the name of the item it was written for. -/
structure OwnedRow (α : Type) (skill : Bool) where
  owner : String
  entry : FileEntry α
  sourced : entry.source = owner ∨ skill = true ∧ entry.source = prefixed owner

def OnlyItem.rows (it : OnlyItem) (s : State α) : List (FileEntry α) :=
  if it.skill then s.skills else s.plugins

def OnlyItem.put (it : OnlyItem) (f : StateFile α) (rows : List (FileEntry α)) : StateFile α :=
  if it.skill then { f with skills := rows } else { f with plugins := rows }

/-- `BuildItemRemoved`: the state that is left, and whether it lacks a row. -/
def buildItemRemoved (prev : StateFile α) (it : OnlyItem) : StateFile α × Bool :=
  let rows := it.rows prev.toState
  let kept := rows.filter fun e => !it.owns e prev.environment
  (it.put prev kept, kept.length ≠ rows.length)

theorem OnlyItem.put_inj {it : OnlyItem} {f : StateFile α} {rows rows' : List (FileEntry α)} :
    it.put f rows = it.put f rows' ↔ rows = rows' := by
  rw [put, put]
  constructor
  · intro h
    split at h
    · exact congrArg (fun g => g.skills) h
    · exact congrArg (fun g => g.plugins) h
  · rintro rfl
    rfl

def priorFile (o : Opts) (prev : Option (StateFile α)) : StateFile α :=
  prev.getD ⟨.empty, o.environment, [], [], []⟩

theorem composeNextState_only {o : Opts} {it : OnlyItem} (ho : o.only = some it)
    {prev : Option (StateFile α)} (henv : (priorFile o prev).environment = o.environment)
    (rows : State α) (runtimeFiles : List (FileEntry α)) :
    composeNextState o prev rows runtimeFiles =
      it.put (priorFile o prev)
        (it.swap o.environment (it.rows (priorFile o prev).toState) (it.rows rows)) := by
  have hbase : { prev.getD ⟨.empty, "", [], [], []⟩ with environment := o.environment } =
      priorFile o prev := by
    cases prev with
    | none => rfl
    | some f => rw [← henv]; rfl
  rw [composeNextState, ho, hbase]
  rcases it with ⟨_ | _, name⟩ <;> rfl

def others {skill : Bool} (name : String) (rows : List (OwnedRow α skill)) : List (FileEntry α) :=
  (rows.filter fun r => r.owner ≠ name).map OwnedRow.entry

/-- The row of another skill is taken for one of the item's: the item is called as the other skill
is staged, or the other skill's row has the name that the item has with the environment's in
front. -/
def OwnedRow.Mistaken {skill : Bool} (env name : String) (r : OwnedRow α skill) : Prop :=
  skill = true ∧ r.owner ≠ name ∧
    (name = prefixed r.owner ∧ r.entry.source = name ∨
      r.owner = env ++ "-" ++ name ∧ r.entry.source = r.owner ∨
      prefixed r.owner = env ++ "-" ++ name ∧ r.entry.source = prefixed r.owner)

/-- A row under the name that the item has with the staging prefix: an installation drops that of
another skill if it writes rows, and keeps the item's own if it writes none. -/
def OwnedRow.Misplaced {skill : Bool} (env name : String) (fresh : List (FileEntry α))
    (r : OwnedRow α skill) : Prop :=
  skill = true ∧ r.entry.source = prefixed name ∧
    (fresh ≠ [] ∧ r.owner = prefixed name ∨ fresh = [] ∧ r.owner = name ∧ env ≠ "tmp")

theorem append_dash_inj {env a b : String} : env ++ "-" ++ a = env ++ "-" ++ b ↔ a = b :=
  String.append_right_inj _

theorem append_dash_ne (env a : String) : env ++ "-" ++ a ≠ a := by
  intro h
  have hlen := congrArg String.length h
  simp only [String.length_append] at hlen
  have hdash : "-".length = 1 := rfl
  omega

theorem prefixed_eq_iff {env name : String} : prefixed name = env ++ "-" ++ name ↔ env = "tmp" := by
  rw [prefixed, String.append_left_inj, String.append_left_inj, eq_comm]

variable {it : OnlyItem} {env : String}

theorem owns_iff {e : FileEntry α} :
    it.owns e env = true ↔
      e.source = it.name ∨ it.skill = true ∧ e.source = env ++ "-" ++ it.name := by
  simp [OnlyItem.owns]

/-- Among the rows of other items exactly the mistaken ones are taken for the item's. -/
theorem OwnedRow.owns_iff_mistaken {r : OwnedRow α it.skill} (hn : r.owner ≠ it.name) :
    it.owns r.entry env = true ↔ r.Mistaken env it.name := by
  rw [owns_iff]
  constructor
  · rintro (h | ⟨hk, h⟩)
    · obtain hs | ⟨hk, hs⟩ := r.sourced
      · exact absurd (hs.symm.trans h) hn
      · exact ⟨hk, hn, .inl ⟨h.symm.trans hs, h⟩⟩
    · obtain hs | ⟨-, hs⟩ := r.sourced
      · exact ⟨hk, hn, .inr (.inl ⟨hs.symm.trans h, hs⟩)⟩
      · exact ⟨hk, hn, .inr (.inr ⟨hs.symm.trans h, hs⟩)⟩
  · rintro ⟨hk, -, ⟨-, hs⟩ | ⟨ho, hs⟩ | ⟨ho, hs⟩⟩
    · exact .inl hs
    · exact .inr ⟨hk, hs.trans ho⟩
    · exact .inr ⟨hk, hs.trans ho⟩

/-- The rows that an installation drops, when its own rows are under the name the item is staged
under. -/
theorem swapped_iff {fresh : List (FileEntry α)} {staged : String}
    (hfresh : ∀ e ∈ fresh, e.source = staged) (hplugin : it.skill = false → staged = it.name)
    (hskill : it.skill = true → staged = it.name ∨ staged = prefixed it.name) {e : FileEntry α}
    (hprefixed : it.skill = true → e.source = prefixed it.name → staged = prefixed it.name) :
    (it.owns e env || fresh.any fun f => f.source = e.source) = true ↔
      it.owns e env = true ∨ it.skill = true ∧ fresh ≠ [] ∧ e.source = prefixed it.name := by
  rw [Bool.or_eq_true, List.any_eq_true]
  refine or_congr_right' fun howns => ?_
  constructor
  · rintro ⟨f, hf, heq⟩
    have hs : e.source = staged := (of_decide_eq_true heq).symm.trans (hfresh f hf)
    cases hk : it.skill with
    | false => exact absurd (owns_iff.mpr (.inl (hs.trans (hplugin hk)))) howns
    | true =>
      obtain hst | hst := hskill hk
      · exact absurd (owns_iff.mpr (.inl (hs.trans hst))) howns
      · exact ⟨rfl, List.ne_nil_of_mem hf, hs.trans hst⟩
  · rintro ⟨hk, hne, hs⟩
    obtain ⟨f, hf⟩ := List.exists_mem_of_ne_nil fresh hne
    exact ⟨f, hf, decide_eq_true ((hfresh f hf).trans ((hprefixed hk hs).trans hs.symm))⟩

/-- An installation judges a row rightly if it neither mistakes nor misplaces it. -/
theorem OwnedRow.judged_iff {r : OwnedRow α it.skill} {fresh : List (FileEntry α)} :
    ((it.owns r.entry env = true ∨
          it.skill = true ∧ fresh ≠ [] ∧ r.entry.source = prefixed it.name) ↔ r.owner = it.name) ↔
      ¬ r.Mistaken env it.name ∧ ¬ r.Misplaced env it.name fresh := by
  by_cases hn : r.owner = it.name
  · have hmistaken : ¬ r.Mistaken env it.name := fun h => h.2.1 hn
    simp only [hn, iff_true, hmistaken, not_false_eq_true, true_and]
    rw [owns_iff]
    constructor
    · rintro h ⟨-, hs, ⟨-, ho⟩ | ⟨hempty, -, henv⟩⟩
      · exact append_dash_ne "tmp" it.name (ho.symm.trans hn)
      · obtain (h | ⟨-, h⟩) | ⟨-, hne, -⟩ := h
        · exact append_dash_ne "tmp" it.name (hs.symm.trans h)
        · exact henv (prefixed_eq_iff.mp (hs.symm.trans h))
        · exact hne hempty
    · intro h
      obtain hs | ⟨hk, hs⟩ := r.sourced
      · exact .inl (.inl (hs.trans hn))
      rw [hn] at hs
      by_cases hempty : fresh = []
      · refine .inl (.inr ⟨hk, ?_⟩)
        by_cases henv : env = "tmp"
        · exact hs.trans (prefixed_eq_iff.mpr henv)
        · exact absurd ⟨hk, hs, .inr ⟨hempty, hn, henv⟩⟩ h
      · exact .inr ⟨hk, hempty, hs⟩
  · simp only [hn, iff_false, not_or, OwnedRow.owns_iff_mistaken hn]
    refine and_congr_right fun _ => not_congr ⟨?_, ?_⟩
    · rintro ⟨hk, hne, hs⟩
      refine ⟨hk, hs, .inl ⟨hne, ?_⟩⟩
      obtain ho | ⟨-, ho⟩ := r.sourced
      · exact ho.symm.trans hs
      · exact absurd (append_dash_inj.mp (ho.symm.trans hs)) hn
    · rintro ⟨hk, hs, ⟨hne, -⟩ | ⟨-, ho, -⟩⟩
      · exact ⟨hk, hne, hs⟩
      · exact absurd ho hn

theorem filter_filter_of_imp {β : Type} {l : List β} {p q : β → Bool}
    (h : ∀ x ∈ l, q x = true → p x = true) : (l.filter p).filter q = l.filter q := by
  rw [List.filter_filter]
  refine List.filter_congr fun x hx => ?_
  rw [Bool.eq_iff_iff, Bool.and_eq_true]
  exact ⟨fun hx => hx.1, fun hq => ⟨hq, h x hx hq⟩⟩

theorem filter_entries_iff {β γ : Type} {l : List β} {f : β → γ} {p : γ → Bool} {q : β → Bool} :
    (l.map f).filter p = (l.filter q).map f ↔ ∀ x ∈ l, (p (f x) = true ↔ q x = true) := by
  rw [List.filter_map]
  constructor
  · intro heq
    have hq : ∀ x ∈ l, q x = true → p (f x) = true := by
      intro x hx hqx
      have hmem : f x ∈ (l.filter (p ∘ f)).map f := by
        rw [heq]
        exact List.mem_map_of_mem (List.mem_filter.mpr ⟨hx, hqx⟩)
      obtain ⟨y, hy, hfy⟩ := List.mem_map.mp hmem
      exact hfy ▸ (List.mem_filter.mp hy).2
    have hlen : ((l.filter (p ∘ f)).filter q).length = (l.filter (p ∘ f)).length := by
      rw [filter_filter_of_imp (p := p ∘ f) hq]
      simpa using (congrArg List.length heq).symm
    intro x hx
    refine ⟨fun hp => ?_, hq x hx⟩
    exact List.length_filter_eq_length_iff.mp hlen x (List.mem_filter.mpr ⟨hx, hp⟩)
  · intro h
    refine congrArg _ (List.filter_congr fun x hx => ?_)
    rw [Bool.eq_iff_iff]
    exact h x hx

theorem others_sublist_iff {rows : List (OwnedRow α it.skill)} :
    (others it.name rows).Sublist ((rows.map OwnedRow.entry).filter fun e => !it.owns e env) ↔
      ∀ r ∈ rows, ¬ r.Mistaken env it.name := by
  constructor
  · intro h r hr hm
    have hmem : r.entry ∈ others it.name rows :=
      List.mem_map_of_mem (List.mem_filter.mpr ⟨hr, decide_eq_true hm.2.1⟩)
    have hkept := (List.mem_filter.mp (h.subset hmem)).2
    rw [(OwnedRow.owns_iff_mistaken hm.2.1).mpr hm] at hkept
    cases hkept
  · intro h
    rw [others, List.filter_map,
      ← filter_filter_of_imp (p := (fun e => !it.owns e env) ∘ OwnedRow.entry)]
    · exact List.filter_sublist.map _
    · intro r hr hn
      have hown : ¬ it.owns r.entry env = true :=
        (OwnedRow.owns_iff_mistaken (of_decide_eq_true hn)).not.mpr (h r hr)
      simpa using hown

end Rows

section Fresh

/-- What a site's parts are given by: content unpacks below the name of its reference, a served
reference has its name as its identifier, and a skill's files are projected below the name it is
staged under. -/
structure Site.Named (site : Site α τ) (o : Opts) : Prop where
  served : ∀ m, site.manifest = some m → ∀ c, m.context = some c →
    (∀ r ∈ c.plugins, r.id = r.name) ∧ ∀ r ∈ c.skills, r.id = r.name
  plugins : ∀ refs ps, site.unpackPlugins refs = some ps → ∀ p ∈ ps, p.1 ∈ refs.map Ref.name
  skills : ∀ refs ps, site.unpackSkills refs = some ps → ∀ p ∈ ps, p.1 ∈ refs.map Ref.name
  projected : ∀ staged ws, site.projectSkills staged = some ws →
    ∀ w ∈ ws, site.skillName (remapped site o w).path ∈ staged.map Prod.fst

variable {site : Site α τ} {o : Opts} {it : OnlyItem}

theorem targets_only (hsite : site.Named o) (ho : o.only = some it) {m : Manifest}
    (hm : site.manifest = some m) {refs : ContextRefs} (h : targets o m = some refs) :
    (∀ r ∈ refs.plugins, it.skill = false ∧ r.name = it.name) ∧
      ∀ r ∈ refs.skills, it.skill = true ∧ r.name = it.name := by
  have hid : ∀ {rs : List Ref}, (∀ r ∈ rs, r.id = r.name) →
      ∀ r ∈ rs.filter (Ref.isNamed it.name), r.name = it.name := by
    intro rs hrs r hr
    obtain ⟨hmem, hn⟩ := List.mem_filter.mp hr
    simpa [Ref.isNamed, hrs r hmem] using hn
  have hall : ∀ c : ContextRefs, (if o.onlyRuntime then ⟨[], [], [], []⟩
      else m.context.getD ⟨[], [], [], []⟩) = c →
      (∀ r ∈ c.plugins, r.id = r.name) ∧ ∀ r ∈ c.skills, r.id = r.name := by
    rintro c rfl
    split
    · simp
    · cases hc : m.context with
      | none => simp
      | some c => exact hsite.served m hm c hc
  rw [targets, ho] at h
  dsimp only at h
  generalize hc : (if o.onlyRuntime then (⟨[], [], [], []⟩ : ContextRefs)
    else m.context.getD ⟨[], [], [], []⟩) = c at h
  obtain ⟨hp, hs⟩ := hall c hc
  cases hk : it.skill with
  | true =>
    simp only [hk, if_true] at h
    split at h
    · nomatch h
    · cases h
      exact ⟨by simp, fun r hr => ⟨rfl, hid hs r hr⟩⟩
  | false =>
    simp only [hk, Bool.false_eq_true, if_false] at h
    split at h
    · nomatch h
    · cases h
      exact ⟨fun r hr => ⟨rfl, hid hp r hr⟩, by simp⟩

theorem prepare_only (hsite : site.Named o) (ho : o.only = some it) {ws : Workspace α}
    {p : Prepared α τ} (h : prepare site o ws = some p) :
    (∀ q ∈ p.plugins, it.skill = false ∧ q.1 = it.name) ∧
      ∀ q ∈ p.skills, it.skill = true ∧ q.1 = it.name := by
  rw [prepare] at h
  split at h
  · nomatch h
  · obtain ⟨loaded, -, h⟩ := Option.bind_eq_some_iff.mp h
    obtain ⟨m, hm, h⟩ := Option.bind_eq_some_iff.mp h
    obtain ⟨refs, hrefs, h⟩ := Option.bind_eq_some_iff.mp h
    obtain ⟨plugins, hplugins, h⟩ := Option.bind_eq_some_iff.mp h
    obtain ⟨skills, hskills, rfl⟩ := Option.map_eq_some_iff.mp h
    obtain ⟨hp, hs⟩ := targets_only hsite ho hm hrefs
    constructor
    · intro q hq
      obtain ⟨r, hr, heq⟩ := List.mem_map.mp (hsite.plugins _ _ hplugins q hq)
      exact heq ▸ hp r hr
    · intro q hq
      obtain ⟨r, hr, heq⟩ := List.mem_map.mp (hsite.skills _ _ hskills q hq)
      exact heq ▸ hs r hr

variable {b : Bucket} {prev : Option (StateFile α)} {w : FileWrite α} {e : FileEntry α}

theorem source_of_planPlugins {owned : List (FileEntry α)} {before all : List (ProjectedWrite α)}
    {source : String} {prior : Option (FileEntry α)}
    (h : .publish b source prior w ∈ planPlugins o prev owned before all) :
    b = .plugins ∧ ∃ q ∈ all, q.phantom = false ∧ q.plugin = source := by
  induction all generalizing before with
  | nil => cases h
  | cons q all ih =>
    rw [planPlugins, List.mem_append] at h
    rcases h with h | h
    · rw [planPlugin] at h
      split at h
      · cases h
      · rename_i hq
        have hphantom : q.phantom = false := by
          rw [Bool.eq_false_iff]
          exact fun hp => hq (by simp [hp])
        split at h
        · simp at h
        · dsimp only at h
          split at h
          · simp at h
          · simp at h
          · simp only [List.mem_singleton, Planned.publish.injEq] at h
            exact ⟨h.1, q, List.mem_cons_self, hphantom, h.2.1.symm⟩
    · obtain ⟨hb, q', hq', hs⟩ := ih h
      exact ⟨hb, q', List.mem_cons_of_mem _ hq', hs⟩

theorem staged_of_skillWrites {skills : List (String × τ)} {ws : List (FileWrite α)}
    (hsite : site.Named o) (h : skillWrites site o prev skills = some ws) (hw : w ∈ ws) :
    ∃ s ∈ skills, site.skillName w.path = stageName site prev s.1 := by
  rw [skillWrites] at h
  obtain ⟨staged, hstaged, h⟩ := Option.bind_eq_some_iff.mp h
  have hnames : ∀ q ∈ staged, ∃ s ∈ skills, q.1 = stageName site prev s.1 := by
    suffices hloop : ∀ (ps acc : List (String × τ)), ps ⊆ skills →
        (∀ q ∈ acc, ∃ s ∈ skills, q.1 = stageName site prev s.1) → ∀ staged,
        ps.foldlM (fun staged s =>
          if !validSegment s.1 then none
          else (site.nests s.2).map fun ok =>
            if ok then staged ++ [(stageName site prev s.1, s.2)] else staged) acc = some staged →
        ∀ q ∈ staged, ∃ s ∈ skills, q.1 = stageName site prev s.1 from
      hloop _ [] (fun s hs => (List.mem_insertionSort _).mp hs) (by simp) staged hstaged
    intro ps
    induction ps with
    | nil =>
      rintro acc - hacc staged h
      cases h
      exact hacc
    | cons s ps ih =>
      intro acc hps hacc staged h
      rw [List.foldlM_cons] at h
      obtain ⟨next, hnext, h⟩ := Option.bind_eq_some_iff.mp h
      split at hnext
      · nomatch hnext
      · obtain ⟨ok, -, rfl⟩ := Option.map_eq_some_iff.mp hnext
        refine ih _ (fun q hq => hps (List.mem_cons_of_mem _ hq)) (fun q hq => ?_) staged h
        split at hq
        · rcases List.mem_append.mp hq with hq | hq
          · exact hacc q hq
          · cases List.mem_singleton.mp hq
            exact ⟨s, hps List.mem_cons_self, rfl⟩
        · exact hacc q hq
  split at h
  · cases h
    nomatch hw
  · obtain ⟨raw, hraw, rfl⟩ := Option.map_eq_some_iff.mp h
    obtain ⟨v, hv, rfl⟩ := List.mem_map.mp hw
    obtain ⟨q, hq, heq⟩ := List.mem_map.mp (hsite.projected _ _ hraw v hv)
    obtain ⟨s, hs, hname⟩ := hnames q hq
    exact ⟨s, hs, heq.symm.trans hname⟩

theorem State.mem_bucket_record {s : State α} {b' : Bucket} {e' : FileEntry α} :
    e ∈ (s.record e' b').bucket b ↔ e ∈ s.bucket b ∨ b = b' ∧ e = e' := by
  cases b <;> cases b' <;> simp [State.record, State.bucket]

theorem source_of_render [DecidableEq α] {ps : List (Planned α)} {acc r : Disk α × State α}
    (h : ps.foldlM (publishPlanned site o) acc = some r) (he : e ∈ r.2.bucket b) :
    e ∈ acc.2.bucket b ∨ ∃ prior w, .publish b e.source prior w ∈ ps := by
  induction ps generalizing acc with
  | nil =>
    cases h
    exact .inl he
  | cons p ps ih =>
    rw [List.foldlM_cons] at h
    obtain ⟨next, hnext, hrest⟩ := Option.bind_eq_some_iff.mp h
    obtain ⟨b', source, prior, w, fresh, rfl, -, -, hrec, -⟩ := publishPlanned_some hnext
    rcases ih hrest with hmem | ⟨prior', w', hmem⟩
    · rw [hrec] at hmem
      rcases State.mem_bucket_record.mp hmem with hmem | ⟨rfl, rfl⟩
      · exact .inl hmem
      · exact .inr ⟨prior, w, List.mem_cons_self⟩
    · exact .inr ⟨prior', w', List.mem_cons_of_mem _ hmem⟩

theorem source_of_plan (hsite : site.Named o) {m : Manifest} {plugins skills : List (String × τ)}
    {source : String} {prior : Option (FileEntry α)}
    (h : .publish b source prior w ∈ plan site o prev m plugins skills) :
    (b = .plugins → source ∈ plugins.map Prod.fst) ∧
      (b = .skills → ∃ s ∈ skills, source = stageName site prev s.1) := by
  rw [plan] at h
  split at h
  · simp at h
  rcases List.mem_append.mp h with h | h
  · obtain ⟨_, -, heq⟩ := List.mem_map.mp h
    cases heq
    exact ⟨nofun, nofun⟩
  split at h
  · nomatch h
  split at h
  · simp at h
  rename_i all hall
  dsimp only at h
  split at h
  · simp at h
  rename_i all' hres
  rcases List.mem_append.mp h with h | h
  · obtain ⟨rfl, q, hq, hphantom, rfl⟩ := source_of_planPlugins h
    refine ⟨fun _ => ?_, nofun⟩
    obtain ⟨i, hi⟩ := List.mem_iff_getElem?.mp hq
    obtain ⟨u, hu, rfl⟩ := exists_of_resolved hres hi
    rw [settled_phantom] at hphantom
    rw [settled_plugin]
    have hu := List.mem_of_getElem? hu
    split at hu
    · rcases List.mem_append.mp hu with hu | hu
      · exact plugin_of_collect hall hu
      · obtain ⟨_, -, rfl⟩ := List.mem_map.mp hu
        nomatch hphantom
    · exact plugin_of_collect hall hu
  · rw [planSkills] at h
    split at h
    · simp at h
    · rename_i writes hwrites
      obtain ⟨v, hv, heq⟩ := List.mem_map.mp h
      cases heq
      exact ⟨nofun, fun _ => staged_of_skillWrites hsite hwrites hv⟩

/-- The name that the rows of the item come under. -/
def OnlyItem.stagedAs (it : OnlyItem) (site : Site α τ) (prev : Option (StateFile α)) : String :=
  if it.skill then stageName site prev it.name else it.name

theorem source_of_render_only [DecidableEq α] (hsite : site.Named o) (ho : o.only = some it)
    {ws : Workspace α} {p : Prepared α τ} (hp : prepare site o ws = some p) {r : Disk α × State α}
    (hr : site.render o ws.disk (p.plan site o) = some r) :
    ∀ e ∈ it.rows r.2, e.source = it.stagedAs site p.prev := by
  obtain ⟨hplugins, hskills⟩ := prepare_only hsite ho hp
  intro e he
  rw [OnlyItem.rows] at he
  rw [OnlyItem.stagedAs]
  cases hk : it.skill with
  | true =>
    rw [hk, if_pos rfl] at he
    rcases source_of_render (b := .skills) hr he with hnil | ⟨prior, w, hmem⟩
    · nomatch hnil
    · obtain ⟨s, hs, hsource⟩ := (source_of_plan hsite hmem).2 rfl
      rw [(hskills s hs).2] at hsource
      exact hsource
  | false =>
    rw [hk, if_neg Bool.false_ne_true] at he
    rcases source_of_render (b := .plugins) hr he with hnil | ⟨prior, w, hmem⟩
    · nomatch hnil
    · obtain ⟨q, hq, hsource⟩ := List.mem_map.mp ((source_of_plan hsite hmem).1 rfl)
      exact hsource.symm.trans (hplugins q hq).2

/-- A row under the prefix makes the projection stage the skill there again. -/
theorem stageName_of_mem (he : e ∈ rowsOf prev .skills) {name : String}
    (hs : e.source = prefixed name) : stageName site prev name = prefixed name := by
  have hany : (rowsOf prev .skills).any (fun e => e.source = prefixed name) = true :=
    List.any_eq_true.mpr ⟨e, he, decide_eq_true hs⟩
  rw [stageName, hany, Bool.true_or, if_pos rfl]

theorem rowsOf_priorFile (b : Bucket) : rowsOf prev b = (priorFile o prev).bucket b := by
  cases prev with
  | none => cases b <;> rfl
  | some f => rfl

end Fresh

section Main

variable [DecidableEq α] {site : Site α τ} {o : Opts} {it : OnlyItem}

theorem stored_of_hydrate (hdry : o.dryRun = false) {ws ws' : Workspace α}
    {changes : List ItemChange} {unchanged : ℕ}
    (h : hydrate site o ws = some (ws', changes, unchanged)) {p : Prepared α τ}
    (hp : prepare site o ws = some p) {r : Disk α × State α}
    (hr : site.render o ws.disk (p.plan site o) = some r) :
    ∃ runtimeFiles, ws'.stored = .file (composeNextState o p.prev r.2 runtimeFiles) := by
  rw [hydrate_eq, hp, Option.bind_some] at h
  obtain ⟨content, -, h⟩ := Option.bind_eq_some_iff.mp h
  rw [runFrom] at h
  obtain ⟨r', hr', h⟩ := Option.bind_eq_some_iff.mp h
  cases hr.symm.trans hr'
  simp only [hdry, Bool.false_eq_true, if_false] at h
  obtain ⟨files, -, h⟩ := Option.map_eq_some_iff.mp h
  obtain ⟨rfl, -⟩ := Prod.mk.inj h
  exact ⟨_, rfl⟩

theorem swap_eq_iff (hsite : site.Named o) (ho : o.only = some it) {ws : Workspace α}
    {p : Prepared α τ} (hp : prepare site o ws = some p) {r : Disk α × State α}
    (hr : site.render o ws.disk (p.plan site o) = some r) {rows : List (OwnedRow α it.skill)}
    (hrows : it.rows (priorFile o p.prev).toState = rows.map OwnedRow.entry) :
    it.swap o.environment (rows.map OwnedRow.entry) (it.rows r.2) =
        others it.name rows ++ it.rows r.2 ↔
      ∀ row ∈ rows, ¬ row.Mistaken o.environment it.name ∧
        ¬ row.Misplaced o.environment it.name (it.rows r.2) := by
  rw [OnlyItem.swap, List.append_cancel_right_eq, others, filter_entries_iff]
  refine forall₂_congr fun row hrow => ?_
  rw [← OwnedRow.judged_iff, ← swapped_iff (source_of_render_only hsite ho hp hr)]
  · rw [Bool.not_eq_true', decide_eq_true_eq, ← Bool.not_eq_true, not_iff_not]
  · intro hk
    simp [OnlyItem.stagedAs, hk]
  · intro hk
    rw [OnlyItem.stagedAs, hk, if_pos rfl, stageName]
    split
    · exact .inr rfl
    · exact .inl rfl
  · intro hk hs
    rw [OnlyItem.stagedAs, hk, if_pos rfl]
    have hmem : row.entry ∈ it.rows (priorFile o p.prev).toState := hrows ▸ List.mem_map_of_mem hrow
    rw [OnlyItem.rows, if_pos hk] at hmem
    refine stageName_of_mem ?_ hs
    rw [rowsOf_priorFile (o := o)]
    exact hmem

end Main

section Instances

def skillSite (skills : List String) : Site ℕ Unit where
  word := Char.isAlphanum
  lockFree := true
  contained _ := true
  validState _ := true
  manifest := some ⟨"dev", some ⟨[], [], [], skills.map fun s => ⟨s, s⟩⟩, none⟩
  unpackPlugins _ := some []
  unpackSkills refs := some (refs.map fun r => (r.name, ()))
  deliver _ d := some d
  renderRuntime _ := some []
  projectPlugin _ _ := some []
  nests _ := some true
  projectSkills staged := some (staged.map fun s =>
    ⟨".claude/skills/" ++ s.1 ++ "/SKILL.md", .replace, .text [], [], none⟩)
  remap p := p
  leafAt p _ := p
  skillName p := String.ofList ((p.toList.drop 15).rdrop 9)
  foreign := []
  mirror _ d := (d, [])
  ignore _ d := d

def onlySkill (name : String) : Opts :=
  ⟨"dev", false, false, false, false, false, some ⟨true, name⟩, false, .refuse⟩

theorem skillSite_named (skills : List String) (name : String) :
    (skillSite skills).Named (onlySkill name) where
  served := by
    rintro m hm c hc
    cases hm
    cases hc
    simp
  plugins := by
    rintro refs ps h p hp
    cases h
    nomatch hp
  skills := by
    rintro refs ps h p hp
    cases h
    obtain ⟨r, hr, rfl⟩ := List.mem_map.mp hp
    exact List.mem_map_of_mem hr
  projected := by
    rintro staged ws h w hw
    cases h
    obtain ⟨s, hs, rfl⟩ := List.mem_map.mp hw
    refine List.mem_map.mpr ⟨s, hs, ?_⟩
    have hpath : (".claude/skills/" ++ s.1 ++ "/SKILL.md").toList =
        ".claude/skills/".toList ++ (s.1.toList ++ "/SKILL.md".toList) := by
      simp [String.toList_append]
    have hdrop : (".claude/skills/".toList ++ (s.1.toList ++ "/SKILL.md".toList)).drop 15 =
        s.1.toList ++ "/SKILL.md".toList := List.drop_left' rfl
    have hrdrop : (s.1.toList ++ "/SKILL.md".toList).rdrop 9 = s.1.toList :=
      List.rdrop_append_length
    change s.1 = String.ofList (((".claude/skills/" ++ s.1 ++ "/SKILL.md").toList.drop 15).rdrop 9)
    rw [hpath, hdrop, hrdrop, String.ofList_toList]

def skillRow (name : String) : FileEntry ℕ :=
  ⟨".claude/skills/" ++ name ++ "/SKILL.md", .file (.text []), .file (.text []), .replace, [], name⟩

def oneSkill (name : String) : Workspace ℕ where
  disk t := if t = ".claude/skills/" ++ name ++ "/SKILL.md" then some (.text []) else none
  content _ := none
  stored := .file ⟨⟨[], [skillRow name], []⟩, "dev", [], [], []⟩
  ach := .dir false true none

def plainRow (name : String) : OwnedRow ℕ true := ⟨name, skillRow name, .inl rfl⟩

/-- What the run for the skill `x` has at hand next to another one. -/
def besides (other : String) : Prepared ℕ Unit where
  prev := some ⟨⟨[], [skillRow other], []⟩, "dev", [], [], []⟩
  manifest := ⟨"dev", some ⟨[], [], [], [⟨"x", "x"⟩, ⟨other, other⟩]⟩, none⟩
  refs := ⟨[], [], [], [⟨"x", "x"⟩]⟩
  plugins := []
  skills := [("x", ())]

end Instances

end AchProofs.Hydrate
