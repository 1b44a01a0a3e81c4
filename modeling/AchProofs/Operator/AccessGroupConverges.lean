import AchProofs.Operator.AccessGroupShell

namespace AchProofs.Operator.AccessGroup

variable {env : Env} {w w' w'' : LiteLLM}

/-- The group and the mirror are, as sets, the desired ones. -/
def Exact (b : Bindings) (w : LiteLLM) : Prop :=
  ∃ g, w.group = some g ∧ (∀ x, x ∈ g.bindings.models ↔ x ∈ b.models) ∧
    (∀ x, x ∈ g.bindings.mcps ↔ x ∈ b.mcps) ∧ (∀ x, x ∈ g.bindings.agents ↔ x ∈ b.agents) ∧
    (∀ x, x ∈ g.bindings.teams ↔ x ∈ b.teams) ∧ ∀ id, g.id ∈ w.teamAccessGroups id ↔ id ∈ b.teams

variable {b : Bindings} {g : Group}

theorem exact_of_bindings (hg : w.group = some g) (hb : g.bindings = b)
    (hmirror : ∀ id, g.id ∈ w.teamAccessGroups id ↔ id ∈ b.teams) : Exact b w :=
  ⟨g, hg,
    fun x => by rw [hb], fun x => by rw [hb], fun x => by rw [hb], fun x => by rw [hb], hmirror⟩

section Desired

theorem ShellStep.byAlias_eq (h : ShellStep env w w') {name : String}
    (hname : (byAlias w.entries name).isSome ∨ shellTeamAlias env.name ≠ name) :
    byAlias w'.entries name = byAlias w.entries name := by
  rcases h.entries with he | ⟨-, he⟩
  · rw [he]
  · rw [he]
    rcases hname with hsome | hne
    · exact byAlias_append_of_isSome hsome
    · exact byAlias_append_of_ne hne

theorem ShellStep.memberEmails_eq (h : ShellStep env w w') (id : String) :
    memberEmails w'.entries id = memberEmails w.entries id := by
  rcases h.entries with he | ⟨-, he⟩
  · rw [he]
  · rw [he]
    exact memberEmails_append rfl

theorem isSome_byAlias_of_resolved (hres : hasUnresolved env w = false) {a : String}
    (ha : a ∈ env.authorizedTeams) : (byAlias w.entries a).isSome := by
  unfold hasUnresolved at hres
  have hlen : (env.authorizedTeams.filter (fun a => (byAlias w.entries a).isNone)).length = 0 := by
    have := of_decide_eq_false hres
    omega
  have hno := List.filter_eq_nil_iff.mp (List.length_eq_zero_iff.mp hlen) a ha
  cases h : byAlias w.entries a with
  | none => exact absurd (by rw [h]; rfl) hno
  | some id => rfl

theorem ShellStep.authorizedTeamIDs_eq (h : ShellStep env w w')
    (hres : hasUnresolved env w = false) :
    authorizedTeamIDs env w' = authorizedTeamIDs env w :=
  List.filterMap_congr fun _ ha => h.byAlias_eq (.inl (isSome_byAlias_of_resolved hres ha))

theorem ShellStep.hasUnresolved_eq (h : ShellStep env w w') (hres : hasUnresolved env w = false) :
    hasUnresolved env w' = false := by
  have hteams : env.authorizedTeams.filter (fun a => (byAlias w'.entries a).isNone) =
      env.authorizedTeams.filter (fun a => (byAlias w.entries a).isNone) :=
    List.filter_congr fun a ha => by rw [h.byAlias_eq (.inl (isSome_byAlias_of_resolved hres ha))]
  unfold hasUnresolved at hres ⊢
  rw [h.mcpServers, h.agents, hteams]
  exact hres

theorem ShellStep.entitled_eq (h : ShellStep env w w') (hres : hasUnresolved env w = false) :
    entitledUserShellIDs env w' w' = entitledUserShellIDs env w w ∧
      entitledUserShellIDs env w w' = entitledUserShellIDs env w w := by
  have halias : ∀ email, byAlias w'.entries (userShellAlias env.normalizeEmail email) =
      byAlias w.entries (userShellAlias env.normalizeEmail email) := fun email =>
    h.byAlias_eq (.inr (shellTeamAlias_ne_userShellAlias env.name env.normalizeEmail email))
  unfold entitledUserShellIDs
  simp only [h.authorizedTeamIDs_eq hres, h.memberEmails_eq, halias, and_self]

theorem ShellStep.desired_eq (h : ShellStep env w w') (hres : hasUnresolved env w = false)
    (id : String) :
    desired env w' w' id = desired env w w id ∧ desired env w w' id = desired env w w id := by
  obtain ⟨hent, hent'⟩ := h.entitled_eq hres
  unfold desired mcpIDs agentIDs
  rw [hent, hent', h.authorizedTeamIDs_eq hres, h.mcpServers, h.agents]
  exact ⟨rfl, rfl⟩

theorem Frame.desired_eq (h : Frame w w') (id : String) :
    desired env w' w' id = desired env w w id := by
  unfold desired mcpIDs agentIDs entitledUserShellIDs authorizedTeamIDs
  rw [h.entries, h.mcpServers, h.agents]

theorem Frame.hasUnresolved_eq (h : Frame w w') : hasUnresolved env w' = hasUnresolved env w := by
  unfold hasUnresolved
  rw [h.entries, h.mcpServers, h.agents]

theorem Frame.shellID_eq (h : Frame w w') : shellID env w' = shellID env w := by
  unfold shellID
  rw [h.entries]

theorem Frame.want_eq (h : Frame w w') : want env w' = want env w := by
  unfold want
  rw [h.shellID_eq, h.desired_eq]

theorem ShellStep.shellID_eq (h : ShellStep env w w') : shellID env w' = shellID env w := by
  rcases h.entries with he | ⟨hnone, he⟩
  · rw [shellID, he, shellID]
  · obtain ⟨id, -, hid, -⟩ := h.settled
    obtain ⟨e, he', rfl, -, hname⟩ := mem_of_byAlias hid
    rw [shellID, hid, shellID, hnone, Option.getD_some, Option.getD_none]
    rw [he] at he' hid
    unfold byAlias at hnone hid
    rw [List.find?_append, Option.map_eq_none_iff.mp hnone, Option.none_or,
      List.find?_singleton] at hid
    split_ifs at hid
    · exact (Option.some.inj hid).symm
    · cases hid

theorem ShellStep.want_eq (h : ShellStep env w w') (hres : hasUnresolved env w = false) :
    want env w' = want env w := by
  unfold want
  rw [h.shellID_eq, (h.desired_eq hres _).1]

theorem known_of_byAlias {v : LiteLLM}
    (hkeep : ∀ name i, byAlias w.entries name = some i → (v.team i).isSome)
    (hshell : (v.team (shellID env w)).isSome) {id : String} (hid : id ∈ (want env w).teams) :
    (v.team id).isSome := by
  have hmem : id ∈ addNew (addNew (authorizedTeamIDs env w) [shellID env w])
    (entitledUserShellIDs env w w) := hid
  rw [mem_addNew, mem_addNew, List.mem_singleton] at hmem
  rcases hmem with (hauth | rfl) | huser
  · obtain ⟨a, -, ha⟩ := List.mem_filterMap.mp hauth
    exact hkeep a id ha
  · exact hshell
  · unfold entitledUserShellIDs at huser
    rw [mem_addNew] at huser
    obtain ⟨i, -, hi⟩ := List.mem_flatMap.mp (huser.resolve_left List.not_mem_nil)
    obtain ⟨email, -, he⟩ := List.mem_filterMap.mp hi
    exact hkeep _ id he

theorem ShellStep.known (h : ShellStep env w w') {id : String} (hid : id ∈ (want env w).teams) :
    (w'.team id).isSome := by
  refine known_of_byAlias (fun name i hi => ?_) ?_ hid
  · obtain ⟨e, he, rfl, -, -⟩ := mem_of_byAlias hi
    refine isSome_team_of_entry ?_
    rcases h.entries with hent | ⟨-, hent⟩
    · exact hent ▸ he
    · exact hent ▸ List.mem_append_left _ he
  · obtain ⟨i, t, halias, ht, -⟩ := h.settled
    have hi : shellID env w' = i := by rw [shellID, halias, Option.getD_some]
    rw [← h.shellID_eq, hi, ht]
    rfl

end Desired

/-- What the writes to the access group come to. -/
structure Written (b : Bindings) (g? : Option Group) (w : LiteLLM) (r : Result) : Prop where
  exact : Exact b r.world
  reason : r.reason = .synced
  unconverged : r.unconverged = none
  frame : Frame w r.world
  kept : ∀ g, g? = some g → ∀ id ∈ b.teams, g.id ∈ w.teamAccessGroups id →
    ∀ v ∈ r.writes, g.id ∈ v.teamAccessGroups id
  quiet : ∃ g, r.world.group = some g ∧ computeAccessGroupDrift g b r.world = false

theorem drift_eq_false_of_bindings (hw : w.Wf) (hb : g.bindings = b)
    (hmirror : ∀ id, g.id ∈ w.teamAccessGroups id ↔ id ∈ b.teams) :
    computeAccessGroupDrift g b w = false := by
  unfold computeAccessGroupDrift
  rw [hb, sameSet_self, sameSet_self, sameSet_self, sameSet_self,
    (needed_eq_false_iff hw).mpr hmirror]
  rfl

theorem written_put {g? : Option Group} {writes : List LiteLLM} {w0 : LiteLLM} (hw : w.Wf)
    (hf : Frame w0 w)
    (hmirror : ∀ id, g.id ∈ (w.updateAccessGroup g b).teamAccessGroups id ↔ id ∈ b.teams)
    (hkept : ∀ h, g? = some h → ∀ id ∈ b.teams, h.id ∈ w0.teamAccessGroups id →
      ∀ v ∈ writes, h.id ∈ v.teamAccessGroups id) :
    Written b g? w0 ⟨w.updateAccessGroup g b, writes, .synced, none⟩ := by
  have hframe := updateAccessGroup_frame w g b
  refine ⟨exact_of_bindings rfl rfl hmirror, rfl, rfl, hf.trans hframe, hkept, ⟨g.id, b⟩, rfl, ?_⟩
  exact drift_eq_false_of_bindings (hframe.wf hw) rfl hmirror

theorem repair_written {seen : LiteLLM} (hseen : seen.Wf) (hw : w.Wf)
    (hmirror : ∀ id, w.teamAccessGroups id = seen.teamAccessGroups id)
    (hknown : ∀ id ∈ b.teams, (w.team id).isSome) :
    Written b (some g) w (repairAccessGroup noFailure env g b seen none w) := by
  have hneeded : (mirrorRepairStep g.id b.teams seen).2 = false ↔ _ := needed_eq_false_iff hseen
  unfold repairAccessGroup
  simp only
  split_ifs with hstep hun hfail
  · cases hun
  · cases hfail
  · -- both PUTs: the first moves the drifted teams across the boundary
    have hmid : ∀ id, id ∈ (mirrorRepairStep g.id b.teams seen).1 ↔ g.id ∈ w.teamAccessGroups id :=
      fun id => by rw [mem_intermediate hseen, hmirror]
    generalize hint : (mirrorRepairStep g.id b.teams seen).1 = mid at hmid
    let between : Bindings := { b with teams := mid }
    have hfirst : ∀ id, g.id ∈ (w.updateAccessGroup g between).teamAccessGroups id ↔
        g.id ∈ w.teamAccessGroups id := by
      intro id
      rw [mem_updateAccessGroup]
      show _ ∧ ((id ∈ mid ∧ _) ∨ (_ ∧ ¬ (_ ∧ id ∉ mid))) ↔ _
      rw [hmid]
      constructor
      · rintro ⟨-, h | h⟩ <;> exact h.1
      · intro h
        exact ⟨isSome_team_of_mem h, .inr ⟨h, fun hout => hout.2 h⟩⟩
    have hframe := updateAccessGroup_frame w g between
    have hsecond : ∀ id, g.id ∈ ((w.updateAccessGroup g between).updateAccessGroup
        ⟨g.id, between⟩ b).teamAccessGroups id ↔ id ∈ b.teams := by
      intro id
      rw [mem_updateAccessGroup (g := ⟨g.id, between⟩)]
      show _ ∧ ((_ ∧ id ∉ mid) ∨ (_ ∧ ¬ (id ∈ mid ∧ _))) ↔ _
      rw [hframe.isSome_team, hfirst, hmid]
      constructor
      · rintro ⟨-, h | ⟨hin, hout⟩⟩
        · exact h.1
        · exact not_not.mp fun hno => hout ⟨hin, hno⟩
      · intro h
        refine ⟨hknown id h, ?_⟩
        by_cases hin : g.id ∈ w.teamAccessGroups id
        · exact .inr ⟨hin, fun hout => hout.2 h⟩
        · exact .inl ⟨h, hin⟩
    have hwf := (hframe.trans (updateAccessGroup_frame _ ⟨g.id, between⟩ b)).wf hw
    have hverify := (needed_eq_false_iff hwf).mpr hsecond
    unfold finalPut
    simp only [noFailure, Bool.false_eq_true, if_false, Bool.not_true]
    rw [hverify]
    refine written_put (hframe.wf hw) hframe hsecond ?_
    intro h hh id hid hhas v hv
    cases hh
    rcases List.mem_append.mp hv with hv | hv
    · rw [List.mem_singleton.mp hv]
      exact (hfirst id).mpr hhas
    · rw [List.mem_singleton.mp hv]
      exact (hsecond id).mpr hid
  · -- the mirror is right, so one PUT keeps it so
    have hright : ∀ id, g.id ∈ w.teamAccessGroups id ↔ id ∈ b.teams := fun id => by
      rw [hmirror]
      exact hneeded.mp (Bool.of_not_eq_true hstep) id
    have hput : ∀ id, g.id ∈ (w.updateAccessGroup g b).teamAccessGroups id ↔ id ∈ b.teams := by
      intro id
      rw [mem_updateAccessGroup, hright]
      constructor
      · rintro ⟨-, h | h⟩ <;> exact h.1
      · intro h
        exact ⟨hknown id h, .inr ⟨h, fun hout => hout.2 h⟩⟩
    unfold finalPut
    simp only [noFailure, Bool.false_eq_true, if_false, Bool.not_false, if_true]
    refine written_put hw (Frame.refl w) hput ?_
    intro h hh id hid _ v hv
    cases hh
    rw [List.nil_append, List.mem_singleton] at hv
    rw [hv]
    exact (hput id).mpr hid

theorem writeAccessGroup_written {newID : String} (hw : w.Wf) (hstep : ShellStep env w w')
    (hres : hasUnresolved env w = false) (hfresh : ∀ id, newID ∉ w.teamAccessGroups id)
    (hknown : ∀ id ∈ b.teams, (w'.team id).isSome)
    (hjudged : ∀ g, w.group = some g → computeAccessGroupDrift g b w = false → Exact b w) :
    Written b w.group w' (writeAccessGroup noFailure env newID b w none w') := by
  unfold writeAccessGroup
  rw [hres, hstep.group]
  simp only [Bool.false_eq_true, if_false]
  cases hg : w.group with
  | none =>
    have hput : ∀ id, newID ∈ (w'.createAccessGroup newID b).teamAccessGroups id ↔
      id ∈ b.teams := by
      intro id
      rw [mem_createAccessGroup, hstep.mirror]
      exact ⟨fun h => h.2.resolve_right (hfresh id), fun h => ⟨hknown id h, .inl h⟩⟩
    exact written_put (g := ⟨newID, ⟨[], [], [], []⟩⟩) hstep.wf (Frame.refl w') hput (by simp)
  | some g =>
    simp only
    split_ifs with hdrift
    · exact repair_written hw hstep.wf hstep.mirror hknown
    · have hfalse := Bool.of_not_eq_true hdrift
      obtain ⟨g', hg', hm, hmc, ha, ht, hmirror⟩ := hjudged g hg hfalse
      have hsame : w'.group = some g' := hstep.group.trans hg'
      obtain rfl : g' = g := Option.some.inj (hg'.symm.trans hg)
      have hright : ∀ id, g'.id ∈ w'.teamAccessGroups id ↔ id ∈ b.teams := fun id => by
        rw [hstep.mirror]
        exact hmirror id
      refine ⟨⟨g', hsame, hm, hmc, ha, ht, hright⟩, rfl, rfl, Frame.refl w', by simp, g', hsame, ?_⟩
      unfold computeAccessGroupDrift at hfalse ⊢
      rw [Bool.or_eq_false_iff] at hfalse ⊢
      exact ⟨hfalse.1, (needed_eq_false_iff hstep.wf).mpr hright⟩

def pass (env : Env) (newID : String) (w : LiteLLM) : Result :=
  reconcileAccessGroup noFailure env newID none w

/-- What the Environment is promised of a pass. -/
structure Converges (env : Env) (newID : String) (w : LiteLLM) : Prop where
  exact : Exact (want env w) (pass env newID w).world
  reason : (pass env newID w).reason = .synced
  unconverged : (pass env newID w).unconverged = none
  kept : ∀ g, w.group = some g → ∀ id ∈ (want env w).teams, g.id ∈ w.teamAccessGroups id →
    ∀ v ∈ (pass env newID w).writes, g.id ∈ v.teamAccessGroups id
  settled : ∀ newID', (pass env newID' (pass env newID w).world).writes = []

theorem pass_eq (newID : String) (hw : w.Wf) (hres : hasUnresolved env w = false)
    (hfree : byAlias w.entries (shellTeamAlias env.name) = none →
      w.team (shellTeamAlias env.name) = none) (howned : ShellOwned env w) :
    ∃ w' writes, ShellStep env w w' ∧ (∀ v ∈ writes, v = w') ∧
      pass env newID w =
        { writeAccessGroup noFailure env newID (want env w) w none w' with
          writes :=
            writes ++ (writeAccessGroup noFailure env newID (want env w) w none w').writes } := by
  obtain ⟨w', writes, hshell, hstep, hwrites⟩ := ensureShellTeam_spec hw hfree howned
  refine ⟨w', writes, hstep, hwrites, ?_⟩
  have hwant : desired env w w' (shellID env w) = want env w := (hstep.desired_eq hres _).2
  unfold pass reconcileAccessGroup
  simp only [hres, Bool.false_eq_true, if_false, hshell, hwant]
  rfl

theorem Written.converges {newID : String} (hw : w.Wf) (hres : hasUnresolved env w = false)
    (hfree : byAlias w.entries (shellTeamAlias env.name) = none →
      w.team (shellTeamAlias env.name) = none) (howned : ShellOwned env w)
    (hwritten : ∀ w', ShellStep env w w' → Written (want env w) w.group w'
      (writeAccessGroup noFailure env newID (want env w) w none w')) : Converges env newID w := by
  obtain ⟨w', writes, hstep, hwrites, hpass⟩ := pass_eq newID hw hres hfree howned
  have h := hwritten w' hstep
  refine ⟨?_, ?_, ?_, ?_, ?_⟩
  · rw [hpass]
    exact h.exact
  · rw [hpass]
    exact h.reason
  · rw [hpass]
    exact h.unconverged
  · intro g hg id hid hhas v hv
    have hhas' : g.id ∈ w'.teamAccessGroups id := hstep.mirror id ▸ hhas
    rw [hpass] at hv
    rcases List.mem_append.mp hv with hv | hv
    · exact hwrites v hv ▸ hhas'
    · exact h.kept g hg id hid hhas' v hv
  · intro newID'
    rw [hpass]
    generalize writeAccessGroup noFailure env newID (want env w) w none w' = r at h
    show (pass env newID' r.world).writes = []
    -- the second pass sees the same wishes, a settled shell team and no drift
    have hsettled := hstep.settled.of_frame h.frame
    have hsame : want env r.world = want env w := h.frame.want_eq.trans (hstep.want_eq hres)
    obtain ⟨g, hg, hquiet⟩ := h.quiet
    have hres' : hasUnresolved env r.world = false :=
      h.frame.hasUnresolved_eq.trans (hstep.hasUnresolved_eq hres)
    unfold pass reconcileAccessGroup
    simp only [hres', Bool.false_eq_true, if_false, ensureShellTeam_of_settled hsettled]
    have hdes : desired env r.world r.world (shellID env r.world) = want env w := hsame
    rw [hdes]
    unfold writeAccessGroup
    simp only [hres', hg, hquiet, Bool.false_eq_true, if_false]
    rfl

/-- The prior group has the mirror right and fills the desired lists, with an id that is not desired
in the place of one that is desired twice. -/
structure Masked (b : Bindings) (g : Group) (w : LiteLLM) : Prop where
  models : b.models.Perm g.bindings.models
  mcps : Fills g.bindings.mcps b.mcps
  agents : Fills g.bindings.agents b.agents
  teams : Fills g.bindings.teams b.teams
  mirror : ∀ id, g.id ∈ w.teamAccessGroups id ↔ id ∈ b.teams
  other : (∃ x ∈ g.bindings.mcps, x ∉ b.mcps) ∨ (∃ x ∈ g.bindings.agents, x ∉ b.agents) ∨
    ∃ x ∈ g.bindings.teams, x ∉ b.teams

theorem not_masked_of_nodup (hmcps : b.mcps.Nodup) (hagents : b.agents.Nodup)
    (hteams : b.teams.Nodup) : ¬ Masked b g w := by
  intro h
  obtain ⟨x, hx, hno⟩ | ⟨x, hx, hno⟩ | ⟨x, hx, hno⟩ := h.other
  · exact hno ((h.mcps.perm hmcps).mem_iff.mpr hx)
  · exact hno ((h.agents.perm hagents).mem_iff.mpr hx)
  · exact hno ((h.teams.perm hteams).mem_iff.mpr hx)

theorem drift_eq_false_iff (hw : w.Wf) : computeAccessGroupDrift g b w = false ↔
    Fills g.bindings.models b.models ∧ Fills g.bindings.mcps b.mcps ∧
      Fills g.bindings.agents b.agents ∧ Fills g.bindings.teams b.teams ∧
      ∀ id, g.id ∈ w.teamAccessGroups id ↔ id ∈ b.teams := by
  unfold computeAccessGroupDrift
  simp only [Bool.or_eq_false_iff, Bool.not_eq_false', sameSet_iff, needed_eq_false_iff hw,
    and_assoc]

theorem exact_of_not_masked (hw : w.Wf) (hmodels : b.models.Nodup) (hg : w.group = some g)
    (hdrift : computeAccessGroupDrift g b w = false) (hmask : ¬ Masked b g w) : Exact b w := by
  obtain ⟨hm, hmc, ha, ht, hmirror⟩ := (drift_eq_false_iff hw).mp hdrift
  have hperm := hm.perm hmodels
  refine ⟨g, hg, fun x => hperm.mem_iff.symm, hmc.mem_iff fun x hx => ?_,
    ha.mem_iff fun x hx => ?_, ht.mem_iff fun x hx => ?_, hmirror⟩
  all_goals refine not_not.mp fun hno => hmask ⟨hperm, hmc, ha, ht, hmirror, ?_⟩
  · exact .inl ⟨x, hx, hno⟩
  · exact .inr (.inl ⟨x, hx, hno⟩)
  · exact .inr (.inr ⟨x, hx, hno⟩)

theorem shellOwned_of_converges {newID : String} (hres : hasUnresolved env w = false)
    (h : Converges env newID w) : ShellOwned env w := by
  intro id halias t ht
  obtain ⟨-, -, -, hne, -⟩ := mem_of_byAlias halias
  refine not_not.mp fun hno => ?_
  rw [not_or, Bool.not_eq_true, Bool.not_eq_true] at hno
  have hshell : ensureShellTeam noFailure env id w = ⟨w, [], none⟩ := by
    unfold ensureShellTeam
    simp [hne, noFailure, ht, hno]
  have hreason := h.reason
  unfold pass reconcileAccessGroup at hreason
  simp only [hres, halias, Option.getD_some, hshell, Bool.false_eq_true, if_false] at hreason
  cases hreason

theorem sets_of_converges {newID : String} (hw : w.Wf) (hres : hasUnresolved env w = false)
    (hfree : byAlias w.entries (shellTeamAlias env.name) = none → w.team (shellTeamAlias env.name) =
      none)
    (h : Converges env newID w) (hg : w.group = some g)
    (hdrift : computeAccessGroupDrift g (want env w) w = false) :
    (∀ x, x ∈ g.bindings.mcps ↔ x ∈ (want env w).mcps) ∧
      (∀ x, x ∈ g.bindings.agents ↔ x ∈ (want env w).agents) ∧
      ∀ x, x ∈ g.bindings.teams ↔ x ∈ (want env w).teams := by
  obtain ⟨w', writes, hstep, -, hpass⟩ :=
    pass_eq newID hw hres hfree (shellOwned_of_converges hres h)
  have hworld : (pass env newID w).world = w' := by
    rw [hpass]
    unfold writeAccessGroup
    simp only [hres, hstep.group, hg, hdrift, Bool.false_eq_true, if_false]
  obtain ⟨g', hg', -, hmcps, hagents, hteams, -⟩ := h.exact
  rw [hworld, hstep.group, hg] at hg'
  obtain rfl := Option.some.inj hg'
  exact ⟨hmcps, hagents, hteams⟩

def oneTeamEnv (mcpServers : List String) : Env :=
  ⟨"e", 1, [], [], mcpServers, [], [], ["run"], [], [], [], id⟩

def sharedTeam : Team := ⟨"t", "run", ["g"], [], none, none, ⟨none, none, []⟩⟩

def ownShell : Team := { newShellTeam (oneTeamEnv []) with accessGroupIDs := ["g"] }

def twoServers : LiteLLM :=
  ⟨[("m", "s1"), ("n", "s2")], [], [sharedTeam, ownShell],
    some ⟨"g", ⟨[], ["s1", "s2"], [], ["t", "ach-env-e"]⟩⟩⟩

theorem twoServers_wf : twoServers.Wf := ⟨by decide +kernel, by decide +kernel⟩

end AchProofs.Operator.AccessGroup
