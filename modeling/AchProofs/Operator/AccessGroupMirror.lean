import AchProofs.Operator.AccessGroup

namespace AchProofs.Operator.AccessGroup

/-- Teams are known by their ids. -/
structure LiteLLM.Wf (w : LiteLLM) : Prop where
  nodup : (w.teams.map Team.teamID).Nodup
  ids : ∀ t ∈ w.teams, t.teamID ≠ ""

theorem nodup_compactSorted (l : List String) : (compactSorted l).Nodup :=
  (List.mergeSort_perm l.dedup _).nodup_iff.mpr (List.nodup_dedup l)

theorem sameSet_self (l : List String) : sameSet l l = true := by
  simp [sameSet]

/-- As many ids as the desired list has, its repetitions counted, and all of the desired ones. -/
def Fills (a b : List String) : Prop := a.length = b.length ∧ b ⊆ a

theorem sameSet_iff {a b : List String} : sameSet a b = true ↔ Fills a b := by
  simp [sameSet, Fills, List.subset_def]

theorem Fills.perm {a b : List String} (h : Fills a b) (hb : b.Nodup) : b.Perm a :=
  (List.subperm_of_subset hb h.2).perm_of_length_le (Nat.le_of_eq h.1)

theorem Fills.mem_iff {a b : List String} (h : Fills a b) (hno : ∀ x ∈ a, x ∈ b) (x : String) :
    x ∈ a ↔ x ∈ b := ⟨hno x, fun hx => h.2 hx⟩

section Shift

variable {gid : String} {old new : List String}

@[simp] theorem shift_teamID (t : Team) : (t.shift gid old new).teamID = t.teamID := by
  unfold Team.shift
  split_ifs <;> rfl

theorem mem_shift (t : Team) :
    gid ∈ (t.shift gid old new).accessGroupIDs ↔
      (t.teamID ∈ new ∧ t.teamID ∉ old) ∨
        (gid ∈ t.accessGroupIDs ∧ ¬ (t.teamID ∈ old ∧ t.teamID ∉ new)) := by
  unfold Team.shift
  split_ifs with henter hhas hleave
  · exact iff_of_true hhas (.inl henter)
  · exact iff_of_true (List.mem_append_right _ (List.mem_singleton_self _)) (.inl henter)
  · simp [hleave.1, hleave.2]
  · exact ⟨fun h => .inr ⟨h, hleave⟩, fun h => (h.resolve_left henter).1⟩

end Shift

def Team.bare (t : Team) : Team := { t with accessGroupIDs := [] }

theorem shift_bare (gid : String) (old new : List String) (t : Team) :
    (t.shift gid old new).bare = t.bare := by
  unfold Team.shift
  split_ifs <;> rfl

variable {id : String} {w w' : LiteLLM}

theorem team_some {t : Team} (h : w.team id = some t) : t ∈ w.teams ∧ t.teamID = id := by
  unfold LiteLLM.team at h
  exact ⟨List.mem_of_find?_eq_some h, of_decide_eq_true (List.find?_some h :)⟩

theorem team_map {f : Team → Team} (hf : ∀ t, (f t).teamID = t.teamID) (id : String) :
    ({ w with teams := w.teams.map f } : LiteLLM).team id = (w.team id).map f := by
  unfold LiteLLM.team
  rw [List.find?_map]
  congr 2
  funext t
  simp [hf]

/-- All of LiteLLM but the mirror and the access group. -/
structure Frame (w w' : LiteLLM) : Prop where
  mcpServers : w'.mcpServers = w.mcpServers
  agents : w'.agents = w.agents
  teams : w'.teams.map Team.bare = w.teams.map Team.bare

theorem Frame.refl (w : LiteLLM) : Frame w w := ⟨rfl, rfl, rfl⟩

theorem Frame.trans {w'' : LiteLLM} (h : Frame w w') (h' : Frame w' w'') : Frame w w'' :=
  ⟨h'.mcpServers.trans h.mcpServers, h'.agents.trans h.agents, h'.teams.trans h.teams⟩

theorem Frame.entries (h : Frame w w') : w'.entries = w.entries := by
  have hent : ∀ v : LiteLLM, v.entries = (v.teams.map Team.bare).map Team.entry := fun v => by
    rw [List.map_map]
    rfl
  rw [hent, hent, h.teams]

theorem Frame.team (h : Frame w w') (id : String) :
    (w'.team id).map Team.bare = (w.team id).map Team.bare := by
  have hfind : ∀ v : LiteLLM,
      (v.team id).map Team.bare = (v.teams.map Team.bare).find? (fun t => t.teamID = id) :=
        fun v => by
    rw [List.find?_map]
    rfl
  rw [hfind, hfind, h.teams]

theorem Frame.isSome_team (h : Frame w w') (id : String) :
    (w'.team id).isSome = (w.team id).isSome := by
  have := congrArg Option.isSome (h.team id)
  rwa [Option.isSome_map, Option.isSome_map] at this

theorem updateAccessGroup_frame (w : LiteLLM) (g : Group) (b : Bindings) :
    Frame w (w.updateAccessGroup g b) := by
  refine ⟨rfl, rfl, ?_⟩
  show (w.teams.map _).map _ = _
  rw [List.map_map]
  exact List.map_congr_left fun t _ => shift_bare ..

theorem Frame.wf (h : Frame w w') (hw : w.Wf) : w'.Wf := by
  have hids : w'.teams.map Team.teamID = w.teams.map Team.teamID := by
    have hbare : ∀ v : LiteLLM, v.teams.map Team.teamID = (v.teams.map Team.bare).map Team.teamID :=
      fun v => by
        rw [List.map_map]
        rfl
    rw [hbare, hbare, h.teams]
  refine ⟨hids ▸ hw.nodup, fun t ht he => ?_⟩
  obtain ⟨t', ht', he'⟩ := List.mem_map.mp (hids ▸ List.mem_map_of_mem ht)
  exact hw.ids t' ht' (he'.trans he)

theorem mem_updateAccessGroup {g : Group} {b : Bindings} (id : String) :
    g.id ∈ (w.updateAccessGroup g b).teamAccessGroups id ↔
      (w.team id).isSome ∧ ((id ∈ b.teams ∧ id ∉ g.bindings.teams) ∨
        (g.id ∈ w.teamAccessGroups id ∧ ¬ (id ∈ g.bindings.teams ∧ id ∉ b.teams))) := by
  unfold LiteLLM.teamAccessGroups LiteLLM.updateAccessGroup
  have hteam := team_map (w := { w with group := some ⟨g.id, b⟩ })
    (f := Team.shift g.id g.bindings.teams b.teams) (fun t => shift_teamID t) id
  have hsame : ({ w with group := some ⟨g.id, b⟩ } : LiteLLM).team id = w.team id := rfl
  rw [hteam, hsame]
  cases ht : w.team id with
  | none => simp
  | some t =>
    have hid : t.teamID = id := (team_some ht).2
    simp only [Option.map_some, Option.getD_some, Option.isSome_some, true_and, mem_shift, hid]

theorem mem_createAccessGroup {newID : String} {b : Bindings} (id : String) :
    newID ∈ (w.createAccessGroup newID b).teamAccessGroups id ↔
      (w.team id).isSome ∧ (id ∈ b.teams ∨ newID ∈ w.teamAccessGroups id) := by
  have h := mem_updateAccessGroup (w := w) (g := ⟨newID, ⟨[], [], [], []⟩⟩) (b := b) id
  simp only [List.not_mem_nil, not_false_eq_true, and_true, false_and] at h
  exact h

theorem isSome_team_of_mem {gid : String} (h : gid ∈ w.teamAccessGroups id) :
    (w.team id).isSome := by
  unfold LiteLLM.teamAccessGroups at h
  cases ht : w.team id with
  | none =>
    rw [ht] at h
    cases h
  | some t => rfl

theorem team_of_mem (hw : w.Wf) {t : Team} (ht : t ∈ w.teams) : w.team t.teamID = some t := by
  cases hfind : w.team t.teamID with
  | none =>
    have hno := List.find?_eq_none.mp hfind t ht
    exact absurd (decide_eq_true rfl) hno
  | some t' =>
    obtain ⟨hmem, hid⟩ := team_some hfind
    rw [List.inj_on_of_nodup_map hw.nodup hmem ht hid]

theorem mem_teamAccessGroups_iff (hw : w.Wf) {gid : String} :
    gid ∈ w.teamAccessGroups id ↔ ∃ t ∈ w.teams, t.teamID = id ∧ gid ∈ t.accessGroupIDs := by
  constructor
  · intro h
    obtain ⟨t, ht⟩ := Option.isSome_iff_exists.mp (isSome_team_of_mem h)
    unfold LiteLLM.teamAccessGroups at h
    rw [ht] at h
    exact ⟨t, (team_some ht).1, (team_some ht).2, h⟩
  · rintro ⟨t, ht, rfl, hgid⟩
    unfold LiteLLM.teamAccessGroups
    rw [team_of_mem hw ht]
    exact hgid

section Repair

variable {gid : String} {teams : List String} {seen : LiteLLM}

theorem mem_stale (hw : seen.Wf) (id : String) :
    id ∈ (seen.teams.filter fun t =>
        t.teamID ≠ "" && t.teamID ∉ teams && gid ∈ t.accessGroupIDs).map Team.teamID ↔
      id ∉ teams ∧ gid ∈ seen.teamAccessGroups id := by
  rw [mem_teamAccessGroups_iff hw]
  constructor
  · intro h
    obtain ⟨t, ht, rfl⟩ := List.mem_map.mp h
    obtain ⟨ht, hcond⟩ := List.mem_filter.mp ht
    simp only [Bool.and_eq_true, decide_eq_true_eq] at hcond
    exact ⟨hcond.1.2, t, ht, rfl, hcond.2⟩
  · rintro ⟨hno, t, ht, rfl, hgid⟩
    refine List.mem_map_of_mem (List.mem_filter.mpr ⟨ht, ?_⟩)
    simp only [Bool.and_eq_true, decide_eq_true_eq]
    exact ⟨⟨hw.ids t ht, hno⟩, hgid⟩

theorem mem_intermediate (hw : seen.Wf) (id : String) :
    id ∈ (mirrorRepairStep gid teams seen).1 ↔ gid ∈ seen.teamAccessGroups id := by
  unfold mirrorRepairStep
  rw [List.mem_append, List.mem_filter, mem_stale hw, decide_eq_true_eq]
  constructor
  · rintro (h | h) <;> exact h.2
  · intro h
    by_cases hid : id ∈ teams
    · exact .inl ⟨hid, h⟩
    · exact .inr ⟨hid, h⟩

theorem needed_eq_false_iff (hw : seen.Wf) :
    (mirrorRepairStep gid teams seen).2 = false ↔
      ∀ id, gid ∈ seen.teamAccessGroups id ↔ id ∈ teams := by
  have hstale : (!(seen.teams.filter fun t =>
      t.teamID ≠ "" && t.teamID ∉ teams && gid ∈ t.accessGroupIDs).isEmpty) = false ↔
      ∀ id, gid ∈ seen.teamAccessGroups id → id ∈ teams := by
    rw [Bool.not_eq_false', List.isEmpty_iff, ← List.map_eq_nil_iff (f := Team.teamID),
      List.eq_nil_iff_forall_not_mem]
    exact forall_congr' fun id => by rw [mem_stale hw, not_and', not_not]
  unfold mirrorRepairStep
  rw [Bool.or_eq_false_iff, hstale]
  simp only [List.any_eq_false, decide_eq_true_eq, not_not]
  exact ⟨fun h id => ⟨h.2 id, h.1 id⟩, fun h => ⟨fun id => (h id).2, fun id => (h id).1⟩⟩

end Repair

end AchProofs.Operator.AccessGroup
