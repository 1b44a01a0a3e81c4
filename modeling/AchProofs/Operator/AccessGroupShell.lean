import AchProofs.Operator.AccessGroupMirror

namespace AchProofs.Operator.AccessGroup

def noFailure : Call → Bool := fun _ => false

def shellID (env : Env) (w : LiteLLM) : String :=
  (byAlias w.entries (shellTeamAlias env.name)).getD (shellTeamAlias env.name)

def want (env : Env) (w : LiteLLM) : Bindings := desired env w w (shellID env w)

theorem mem_addNew {l ids : List String} {x : String} : x ∈ addNew l ids ↔ x ∈ l ∨ x ∈ ids := by
  induction ids generalizing l with
  | nil => simp [addNew]
  | cons id ids ih =>
    have hstep : addNew l (id :: ids) = addNew (if id ∈ l then l else l ++ [id]) ids := rfl
    rw [hstep, ih]
    split_ifs with h
    · grind
    · grind

section Entries

variable {es : List Entry} {e : Entry} {name id : String}

theorem byAlias_append_of_isSome (h : (byAlias es name).isSome) :
    byAlias (es ++ [e]) name = byAlias es name := by
  unfold byAlias at h ⊢
  rw [Option.isSome_map] at h
  obtain ⟨e', he'⟩ := Option.isSome_iff_exists.mp h
  rw [List.find?_append, he', Option.some_or]

theorem byAlias_append_of_ne (h : e.alias_ ≠ name) :
    byAlias (es ++ [e]) name = byAlias es name := by
  unfold byAlias
  rw [List.find?_append, List.find?_singleton]
  have hno : (e.teamID ≠ "" && e.alias_ ≠ "" && e.alias_ = name : Bool) = false := by simp [h]
  rw [if_neg (by simpa using hno), Option.or_none]

theorem memberEmails_append (h : e.userIDs = []) :
    memberEmails (es ++ [e]) id = memberEmails es id := by
  unfold memberEmails
  rw [List.find?_append, List.find?_singleton]
  cases es.find? (fun e => e.teamID = id) with
  | some e' => rfl
  | none =>
    rw [Option.none_or]
    split_ifs
    · simp only [h, List.filter_nil]
    · rfl

theorem mem_of_byAlias (h : byAlias es name = some id) :
    ∃ e ∈ es, e.teamID = id ∧ id ≠ "" ∧ e.alias_ = name := by
  obtain ⟨e, he, rfl⟩ := Option.map_eq_some_iff.mp h
  have hp := List.find?_some he
  simp only [Bool.and_eq_true, decide_eq_true_eq] at hp
  exact ⟨e, List.mem_of_find?_eq_some he, rfl, hp.1.1, hp.2⟩

end Entries

theorem shellTeamAlias_ne_userShellAlias (env : String) (normalizeEmail : String → String)
    (email : String) : shellTeamAlias env ≠ userShellAlias normalizeEmail email := by
  intro h
  have hlist := congrArg String.toList h
  unfold shellTeamAlias userShellAlias at hlist
  rw [String.toList_append, String.toList_append] at hlist
  have hget := congrArg (fun l : List Char => l[4]?) hlist
  simp at hget

theorem isSome_team_of_entry {w : LiteLLM} {e : Entry} (h : e ∈ w.entries) :
    (w.team e.teamID).isSome := by
  obtain ⟨t, ht, rfl⟩ := List.mem_map.mp h
  exact List.find?_isSome.mpr ⟨t, ht, decide_eq_true rfl⟩

theorem isSome_team_of_byAlias {w : LiteLLM} {name id : String}
    (h : byAlias w.entries name = some id) : (w.team id).isSome := by
  obtain ⟨e, he, rfl, -, -⟩ := mem_of_byAlias h
  exact isSome_team_of_entry he

/-- The shell team is there and needs no repair. -/
def Settled (env : Env) (w : LiteLLM) : Prop :=
  ∃ id t, byAlias w.entries (shellTeamAlias env.name) = some id ∧ w.team id = some t ∧
    t.isShellTeamManaged env.name = true ∧ t.shellTeamDrifted env.guardrails = false

/-- What `ensureShellTeam` leaves: all as it was but for the shell team, which is settled. -/
structure ShellStep (env : Env) (w w' : LiteLLM) : Prop where
  mcpServers : w'.mcpServers = w.mcpServers
  agents : w'.agents = w.agents
  group : w'.group = w.group
  mirror : ∀ id, w'.teamAccessGroups id = w.teamAccessGroups id
  entries : w'.entries = w.entries ∨ (byAlias w.entries (shellTeamAlias env.name) = none ∧
    w'.entries = w.entries ++ [(newShellTeam env).entry])
  wf : w'.Wf
  settled : Settled env w'

variable {env : Env} {w w' w'' : LiteLLM}

theorem Settled.of_frame (h : Frame w w') (hs : Settled env w) : Settled env w' := by
  obtain ⟨id, t, halias, ht, hmanaged, hdrift⟩ := hs
  have hteam := h.team id
  rw [ht, Option.map_some] at hteam
  obtain ⟨t', ht', hbare⟩ := Option.map_eq_some_iff.mp hteam
  have hm : t'.isShellTeamManaged env.name = t.isShellTeamManaged env.name :=
    congrArg (fun t => t.isShellTeamManaged env.name) hbare
  have hd : t'.shellTeamDrifted env.guardrails = t.shellTeamDrifted env.guardrails :=
    congrArg (fun t => t.shellTeamDrifted env.guardrails) hbare
  exact ⟨id, t', h.entries ▸ halias, ht', hm.trans hmanaged, hd.trans hdrift⟩

theorem ensureShellTeam_of_settled (h : Settled env w) :
    ensureShellTeam noFailure env ((byAlias w.entries (shellTeamAlias env.name)).getD "") w =
      ⟨w, [], some (shellID env w)⟩ := by
  obtain ⟨id, t, halias, ht, hmanaged, hdrift⟩ := h
  obtain ⟨-, -, -, hne, -⟩ := mem_of_byAlias halias
  have hid : shellID env w = id := by rw [shellID, halias, Option.getD_some]
  rw [hid, halias, Option.getD_some]
  unfold ensureShellTeam
  simp [hne, noFailure, ht, hmanaged, hdrift]

theorem reassert_not_drifted (t : Team) :
    (t.reassert env).shellTeamDrifted env.guardrails = false := by
  simp [Team.shellTeamDrifted, Team.reassert, shellTeamMetadata, sameGuardrailSet,
    shellTeamPermissions]

theorem updateTeam_shellStep {id : String} (hw : w.Wf)
    (halias : byAlias w.entries (shellTeamAlias env.name) = some id) :
    ShellStep env w (w.updateTeam id env) := by
  have hteam : ∀ i, (w.updateTeam id env).team i =
      (w.team i).map (fun t => if t.teamID = id then t.reassert env else t) :=
    team_map fun t => by split_ifs <;> rfl
  have hentries : (w.updateTeam id env).entries = w.entries := by
    show (w.teams.map _).map _ = w.teams.map _
    rw [List.map_map]
    exact List.map_congr_left fun t _ => by
      rw [Function.comp_apply]
      split_ifs <;> rfl
  have hids : (w.updateTeam id env).teams.map Team.teamID = w.teams.map Team.teamID := by
    have h := congrArg (List.map Entry.teamID) hentries
    unfold LiteLLM.entries at h
    rwa [List.map_map, List.map_map] at h
  refine ⟨rfl, rfl, rfl, fun i => ?_, .inl hentries, ⟨hids ▸ hw.nodup, fun t ht he => ?_⟩, ?_⟩
  · unfold LiteLLM.teamAccessGroups
    rw [hteam i, Option.map_map]
    congr 2
    funext t
    rw [Function.comp_apply]
    split_ifs <;> rfl
  · obtain ⟨t', ht', he'⟩ := List.mem_map.mp (hids ▸ List.mem_map_of_mem ht)
    exact hw.ids t' ht' (he'.trans he)
  · obtain ⟨t, ht⟩ := Option.isSome_iff_exists.mp (isSome_team_of_byAlias halias)
    refine ⟨id, t.reassert env, hentries ▸ halias, ?_, ?_, reassert_not_drifted t⟩
    · rw [hteam id, ht, Option.map_some, if_pos (team_some ht).2]
    · simp [Team.isShellTeamManaged, Team.reassert, shellTeamMetadata]

theorem createTeam_shellStep (hw : w.Wf)
    (halias : byAlias w.entries (shellTeamAlias env.name) = none)
    (hfree : w.team (shellTeamAlias env.name) = none) :
    ShellStep env w (w.createTeam (newShellTeam env)) := by
  have hne : shellTeamAlias env.name ≠ "" := by
    intro h
    have hlen := congrArg String.length h
    rw [shellTeamAlias, String.length_append] at hlen
    simp at hlen
  have hteam : ∀ i, (w.createTeam (newShellTeam env)).team i =
      (w.team i).or (if shellTeamAlias env.name = i then some (newShellTeam env) else none) := by
    intro i
    show (w.teams ++ [newShellTeam env]).find? _ = _
    rw [List.find?_append, List.find?_singleton]
    congr 1
    exact if_congr decide_eq_true_iff rfl rfl
  have hentries : (w.createTeam (newShellTeam env)).entries =
      w.entries ++ [(newShellTeam env).entry] := by
    simp [LiteLLM.entries, LiteLLM.createTeam]
  have hnew : shellTeamAlias env.name ∉ w.teams.map Team.teamID := by
    intro hm
    obtain ⟨t, ht, hid⟩ := List.mem_map.mp hm
    have := team_of_mem hw ht
    rw [hid, hfree] at this
    cases this
  refine ⟨rfl, rfl, rfl, fun i => ?_, .inr ⟨halias, hentries⟩, ⟨?_, fun t ht => ?_⟩, ?_⟩
  · unfold LiteLLM.teamAccessGroups
    rw [hteam i]
    cases w.team i with
    | some t => rfl
    | none =>
      rw [Option.none_or]
      split_ifs <;> rfl
  · show ((w.teams ++ [newShellTeam env]).map Team.teamID).Nodup
    rw [List.map_append, List.nodup_append]
    refine ⟨hw.nodup, List.nodup_singleton _, fun a ha b hb => ?_⟩
    rw [List.map_singleton, List.mem_singleton] at hb
    rintro rfl
    have hmem : (newShellTeam env).teamID ∈ w.teams.map Team.teamID := hb ▸ ha
    exact hnew hmem
  · rcases List.mem_append.mp ht with ht | ht
    · exact hw.ids t ht
    · rw [List.mem_singleton.mp ht]
      exact hne
  · refine ⟨shellTeamAlias env.name, newShellTeam env, ?_, ?_, ?_, ?_⟩
    · unfold byAlias at halias ⊢
      rw [hentries, List.find?_append, Option.map_eq_none_iff.mp halias, Option.none_or,
        List.find?_singleton]
      simp [newShellTeam, Team.entry, hne]
    · rw [hteam, hfree, Option.none_or, if_pos rfl]
    · simp [Team.isShellTeamManaged, newShellTeam, shellTeamMetadata]
    · exact reassert_not_drifted (newShellTeam env)

/-- The shell team is one the operator may take for its own. -/
def ShellOwned (env : Env) (w : LiteLLM) : Prop :=
  ∀ id, byAlias w.entries (shellTeamAlias env.name) = some id → ∀ t, w.team id = some t →
    t.isShellTeamManaged env.name = true ∨ t.isShellTeamShaped env.name = true

theorem ensureShellTeam_spec (hw : w.Wf)
    (hfree : byAlias w.entries (shellTeamAlias env.name) = none →
      w.team (shellTeamAlias env.name) = none) (howned : ShellOwned env w) :
    ∃ w' writes, ensureShellTeam noFailure env
        ((byAlias w.entries (shellTeamAlias env.name)).getD "") w =
          ⟨w', writes, some (shellID env w)⟩ ∧
      ShellStep env w w' ∧ ∀ v ∈ writes, v = w' := by
  cases halias : byAlias w.entries (shellTeamAlias env.name) with
  | none =>
    have hstep := createTeam_shellStep hw halias (hfree halias)
    refine ⟨_, [w.createTeam (newShellTeam env)], ?_, hstep, fun v hv => List.mem_singleton.mp hv⟩
    rw [shellID, halias, Option.getD_none, Option.getD_none]
    unfold ensureShellTeam
    simp [noFailure, hfree halias]
  | some id =>
    obtain ⟨-, -, -, hne, -⟩ := mem_of_byAlias halias
    obtain ⟨t, ht⟩ := Option.isSome_iff_exists.mp (isSome_team_of_byAlias halias)
    have hid : shellID env w = id := by rw [shellID, halias, Option.getD_some]
    by_cases hok : t.isShellTeamManaged env.name = true ∧ t.shellTeamDrifted env.guardrails = false
    · have hsettled : Settled env w := ⟨id, t, halias, ht, hok⟩
      refine ⟨w, [], ?_, ⟨rfl, rfl, rfl, fun _ => rfl, .inl rfl, hw, hsettled⟩, by simp⟩
      have h := ensureShellTeam_of_settled hsettled
      rwa [halias] at h
    · refine ⟨w.updateTeam id env, [w.updateTeam id env], ?_, updateTeam_shellStep hw halias,
        fun v hv => List.mem_singleton.mp hv⟩
      have hown :
          ¬ (t.isShellTeamManaged env.name = false ∧ t.isShellTeamShaped env.name = false) := by
        rintro ⟨hm, hs⟩
        rcases howned id halias t ht with h | h
        · exact absurd (hm.symm.trans h) (by decide)
        · exact absurd (hs.symm.trans h) (by decide)
      have hbad :
          t.shellTeamDrifted env.guardrails = true ∨ t.isShellTeamManaged env.name = false := by
        by_cases hm : t.isShellTeamManaged env.name = true
        · exact .inl (Bool.of_not_eq_false fun hd => hok ⟨hm, hd⟩)
        · exact .inr (Bool.of_not_eq_true hm)
      rw [hid, Option.getD_some]
      unfold ensureShellTeam
      simp [hne, noFailure, ht, reassert_not_drifted, hown, hbad]

end AchProofs.Operator.AccessGroup
