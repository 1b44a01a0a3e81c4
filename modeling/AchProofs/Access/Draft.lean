import AchProofs.Access.Readers

namespace AchProofs.Access

/-- Granted groups count up to their order, which the environment cache leaves open. -/
def SameVerdict : Except PrecheckErr (List String) → Except PrecheckErr (List String) → Prop
  | .ok l, .ok l' => l.Perm l'
  | .error e, .error e' => e = e'
  | _, _ => False

/-- The row hosts the name and shares a team with the caller. -/
def Grants (d : PrecheckDeps) (row : EnvironmentRow) (kc : KeyContext) (name : String)
    (kind : ResourceKind) : Prop :=
  row.ns = d.ns ∧ name ∈ runtimeList row kind ∧
    ∃ teams, d.resolveTeams kc.ownerEmail = some teams ∧ ∃ team ∈ row.authorizedTeams, team ∈ teams

def Decides (d : PrecheckDeps) (t : EnvTable) (row : EnvironmentRow) (kc : KeyContext)
    (name : String)
    (kind : ResourceKind) : Prop :=
  match kc.keyType with
  | .pk => Grants d row kc name kind
  | .ek =>
    if row.ns = d.ns ∧ kc.environment = row.name then name ∈ runtimeList row kind
    else Grants d row kc name kind ∧
      ∃ bound, envProviderGet d t kc.environment = some bound ∧ name ∈ runtimeList bound kind
  | .other => False

theorem sameVerdict_refl (r : Except PrecheckErr (List String)) : SameVerdict r r := by
  cases r with
  | ok l => exact List.Perm.refl l
  | error e => rfl

theorem hydrateEnv_some_ne (d : HydrateDeps) (kc : KeyContext) (n : String) (env : EnvironmentRow) :
    hydrateEnv d kc n none ≠ hydrateEnv d kc n (some env) := by
  simp only [hydrateEnv]
  split
  · simp
  · split
    · simp
    · split <;> simp

theorem find_name (t : EnvTable) (ns name : String) :
    (t.listEnvironments ns).find? (fun r => r.name = name) = t.getEnvironmentByName ns name := by
  simp [EnvTable.listEnvironments, EnvTable.getEnvironmentByName, List.find?_filter]

section Draft

variable {t : EnvTable} {row : EnvironmentRow} (hrow : row ∈ t.rows)

include hrow

theorem hydrate_unseen_iff (d : HydrateDeps) (kc : KeyContext) (body : Option String) :
    hydrateHandler d (t.without row) kc body = hydrateHandler d t kc body ↔
      ¬ (row.ns = d.ns ∧ hydrateTarget kc body = .ok row.name ∧ d.storeDown = false) := by
  unfold hydrateHandler
  cases hydrateTarget kc body with
  | error e => simp
  | ok envName =>
    cases hs : d.storeDown with
    | true => simp
    | false =>
      by_cases hkey : row.ns = d.ns ∧ envName = row.name
      · obtain ⟨hns, rfl⟩ := hkey
        simp only [← hns, EnvTable.get_without_self, EnvTable.get_eq_some hrow]
        simpa using hydrateEnv_some_ne d kc row.name row
      · have hne : (d.ns, envName) ≠ row.key := by
          intro h
          exact hkey ⟨(congrArg Prod.fst h).symm, congrArg Prod.snd h⟩
        simp only [EnvTable.get_without_ne t hne]
        simp only [true_iff]
        rintro ⟨hns, hname, -⟩
        exact hkey ⟨hns, Except.ok.inj hname⟩

theorem checkEkOwner_unseen_iff (d : PrecheckDeps) (kc : KeyContext) :
    checkEkOwner d (t.without row) kc = checkEkOwner d t kc ↔
      ¬ (row.ns = d.ns ∧ kc.keyType = .ek ∧ kc.environment = row.name) := by
  unfold checkEkOwner envProviderGet
  simp only [find_name]
  by_cases hek : kc.keyType = .ek
  · simp only [hek, if_true, true_and]
    by_cases hkey : row.ns = d.ns ∧ kc.environment = row.name
    · obtain ⟨hns, hname⟩ := hkey
      simp only [hname, ← hns, EnvTable.get_without_self, EnvTable.get_eq_some hrow]
      cases d.resolveTeams kc.ownerEmail with
      | none => simp
      | some teams => cases hi : hasIntersect row.authorizedTeams teams <;> simp [hi]
    · have hne : (d.ns, kc.environment) ≠ row.key := by
        intro h
        exact hkey ⟨(congrArg Prod.fst h).symm, congrArg Prod.snd h⟩
      simp only [EnvTable.get_without_ne t hne, true_iff]
      exact hkey
  · simp [hek]

theorem contentGates_unseen_iff (d : ContentDeps) (kc : KeyContext) (header : String)
    (kind : ContentKind) (name : String) :
    contentGates d (t.without row) kc header kind name = contentGates d t kc header kind name ↔
      ¬ (row.ns = d.ns ∧ headerEnv kc header = .ok row.name) := by
  unfold contentGates resolveEnv
  cases headerEnv kc header with
  | error e => simp
  | ok envName =>
    simp only [find_name]
    by_cases hkey : row.ns = d.ns ∧ envName = row.name
    · obtain ⟨hns, rfl⟩ := hkey
      simp only [← hns, EnvTable.get_without_self, EnvTable.get_eq_some hrow]
      unfold enforceTeams enforceAllowlist
      cases d.resolveTeams kc.ownerEmail with
      | failed => simp [bind, Except.bind]
      | notFound =>
        by_cases hl : name ∈ contentList row kind <;>
          cases hi : hasIntersect [] row.authorizedTeams <;> simp [bind, Except.bind, hl, hi]
      | teams l =>
        by_cases hl : name ∈ contentList row kind <;>
          cases hi : hasIntersect l row.authorizedTeams <;> simp [bind, Except.bind, hl, hi]
    · have hne : (d.ns, envName) ≠ row.key := by
        intro h
        exact hkey ⟨(congrArg Prod.fst h).symm, congrArg Prod.snd h⟩
      simp only [EnvTable.get_without_ne t hne, true_iff]
      rintro ⟨hns, hname⟩
      exact hkey ⟨hns, Except.ok.inj hname⟩

theorem checkPk_unseen_iff (d : PrecheckDeps) (kc : KeyContext) (name : String)
    (kind : ResourceKind) :
    SameVerdict (checkPk d (t.without row) kc name kind) (checkPk d t kc name kind) ↔
      ¬ Grants d row kc name kind := by
  unfold Grants checkPk
  cases hteams : d.resolveTeams kc.ownerEmail with
  | none => simp [SameVerdict]
  | some teams =>
    by_cases hnil : teams = []
    · simp [hnil, SameVerdict]
    simp only [if_neg hnil]
    by_cases hns : row.ns = d.ns
    · obtain ⟨before, after, hwith, hwithout⟩ := EnvTable.list_split hrow
      rw [← hns, hwith, hwithout, List.flatMap_append, List.flatMap_append, List.flatMap_cons]
      have hg : grantedBy kind name teams row = [] ↔
          ¬ (name ∈ runtimeList row kind ∧ ∃ team ∈ row.authorizedTeams, team ∈ teams) := by
        unfold grantedBy
        split
        · rename_i hn
          simp [hn]
        · rename_i hn
          simp [hn]
      by_cases hempty : grantedBy kind name teams row = []
      · have hcond := hg.mp hempty
        rw [hempty, List.nil_append]
        refine ⟨fun _ h => hcond ⟨h.2.1, ?_⟩, fun _ => sameVerdict_refl _⟩
        obtain ⟨l, hl, hteam⟩ := h.2.2
        cases hl
        exact hteam
      · have hcond := not_not.mp ((not_congr hg).mp hempty)
        refine ⟨fun h => absurd h ?_, fun h => absurd ⟨rfl, hcond.1, teams, rfl, hcond.2⟩ h⟩
        have hfull : before.flatMap (grantedBy kind name teams) ++ (grantedBy kind name teams row ++
            after.flatMap (grantedBy kind name teams)) ≠ [] := by
          intro h
          exact hempty (List.append_eq_nil_iff.mp (List.append_eq_nil_iff.mp h).2).1
        rw [if_neg hfull]
        split
        · exact nofun
        · intro hperm
          have hlen := List.Perm.length_eq hperm
          simp only [List.length_append] at hlen
          exact hempty (List.length_eq_zero_iff.mp (by omega))
    · rw [EnvTable.list_without_ne t hns]
      exact ⟨fun _ h => hns h.1, fun _ => sameVerdict_refl _⟩

theorem check_unseen_iff (d : PrecheckDeps) (kc : KeyContext) (name : String)
    (kind : ResourceKind) :
    SameVerdict (check d (t.without row) kc name kind) (check d t kc name kind) ↔
      ¬ Decides d t row kc name kind := by
  unfold check Decides
  cases kc.keyType with
  | pk => exact checkPk_unseen_iff hrow d kc name kind
  | other => simp [SameVerdict]
  | ek =>
    simp only [checkEk]
    by_cases hkey : row.ns = d.ns ∧ kc.environment = row.name
    · have hgone : envProviderGet d (t.without row) kc.environment = none := by
        rw [envProviderGet, find_name, hkey.2, ← hkey.1, EnvTable.get_without_self]
      have hhit : envProviderGet d t kc.environment = some row := by
        rw [envProviderGet, find_name, hkey.2, ← hkey.1, EnvTable.get_eq_some hrow]
      simp only [hgone, hhit, if_pos hkey]
      by_cases hn : name ∈ runtimeList row kind
      · simp only [hn, if_true, not_true, iff_false]
        unfold checkPk
        cases d.resolveTeams kc.ownerEmail with
        | none => simp [SameVerdict]
        | some teams =>
          by_cases hnil : teams = []
          · simp [hnil, SameVerdict]
          · simp only [if_neg hnil]
            split <;> simp [SameVerdict]
      · simp [hn, SameVerdict]
    · have hne : (d.ns, kc.environment) ≠ row.key := by
        intro h
        exact hkey ⟨(congrArg Prod.fst h).symm, congrArg Prod.snd h⟩
      have hsame : envProviderGet d (t.without row) kc.environment =
          envProviderGet d t kc.environment := by
        rw [envProviderGet, envProviderGet, find_name, find_name, EnvTable.get_without_ne t hne]
      rw [hsame, if_neg hkey]
      cases envProviderGet d t kc.environment with
      | none => simp [SameVerdict]
      | some bound =>
        by_cases hn : name ∈ runtimeList bound kind
        · simpa [hn] using checkPk_unseen_iff hrow d kc name kind
        · simp [hn, SameVerdict]

end Draft

/-- Exactly when each surface answers as if a row, a draft as well as any other, were not in the
table. -/
theorem draft_unseen_iff (t : EnvTable) (row : EnvironmentRow) (hrow : row ∈ t.rows)
    (hd : HydrateDeps) (pd : PrecheckDeps) (cd : ContentDeps) (kc : KeyContext)
    (body : Option String) (header : String) (kind : ContentKind) (name : String) :
    (hydrateHandler hd (t.without row) kc body = hydrateHandler hd t kc body ↔
      ¬ (row.ns = hd.ns ∧ hydrateTarget kc body = .ok row.name ∧ hd.storeDown = false)) ∧
    (SameVerdict (checkMCP pd (t.without row) kc name) (checkMCP pd t kc name) ↔
      ¬ Decides pd t row kc name .mcp) ∧
    (SameVerdict (checkA2A pd (t.without row) kc name) (checkA2A pd t kc name) ↔
      ¬ Decides pd t row kc name .a2a) ∧
    (checkEkOwner pd (t.without row) kc = checkEkOwner pd t kc ↔
      ¬ (row.ns = pd.ns ∧ kc.keyType = .ek ∧ kc.environment = row.name)) ∧
    (contentGates cd (t.without row) kc header kind name = contentGates cd t kc header kind name ↔
      ¬ (row.ns = cd.ns ∧ headerEnv kc header = .ok row.name)) :=
  ⟨hydrate_unseen_iff hrow hd kc body, check_unseen_iff hrow pd kc name .mcp,
    check_unseen_iff hrow pd kc name .a2a, checkEkOwner_unseen_iff hrow pd kc,
    contentGates_unseen_iff hrow cd kc header kind name⟩

def draftRow : EnvironmentRow where
  ns := "ach"
  name := "dev"
  authorizedTeams := ["core"]
  contextPrompts := []
  contextPlugins := []
  contextArtifacts := []
  contextSkills := ["brand"]
  runtimeModels := []
  runtimeMCPServers := ["git"]
  runtimeA2AAgents := []
  runtimeGuardrails := []
  notice := ""
  origin := .ui

def draftTable : EnvTable := ⟨[draftRow], by simp⟩

def hydrateDeps : HydrateDeps := ⟨"ach", "u", false, fun _ => some ["core"], fun _ => none, id⟩

def precheckDeps : PrecheckDeps := ⟨"ach", fun _ => some ["core"]⟩

def contentDeps : ContentDeps := ⟨"ach", fun _ => .teams ["core"]⟩

def personKey : KeyContext := ⟨.pk, "a@x", "", false⟩

/-- A request for another environment and another name does not notice the draft. -/
theorem draft_unseen_elsewhere :
    draftRow ∈ draftTable.rows ∧ draftRow.origin = .ui ∧
      hydrateHandler hydrateDeps (draftTable.without draftRow) personKey (some "prod") =
        hydrateHandler hydrateDeps draftTable personKey (some "prod") :=
  ⟨by simp [draftTable], rfl, (draft_unseen_iff draftTable draftRow (by simp [draftTable])
    hydrateDeps precheckDeps contentDeps personKey (some "prod") "prod" .skill "other").1.mpr
      (by decide)⟩

/-- A draft nobody applied is served by hydrate, opens its servers to its teams and passes the
content gates. -/
theorem draft_is_served :
    draftRow.origin = .ui ∧
      hydrateHandler hydrateDeps draftTable personKey (some "dev") =
        .ok (hydrateBody hydrateDeps "dev" draftRow) ∧
      hydrateHandler hydrateDeps (draftTable.without draftRow) personKey (some "dev") =
        .error ⟨404, "environment_not_found", "environment not found"⟩ ∧
      checkMCP precheckDeps draftTable personKey "git" = .ok ["core"] ∧
      checkMCP precheckDeps (draftTable.without draftRow) personKey "git" =
        .error .unauthorizedTeam ∧
      contentGates contentDeps draftTable personKey "dev" .skill "brand" = .ok () ∧
      contentGates contentDeps (draftTable.without draftRow) personKey "dev" .skill "brand" =
        .error ⟨404, "environment_not_found", "environment not found"⟩ := by
  refine ⟨rfl, rfl, rfl, rfl, rfl, rfl, rfl⟩

end AchProofs.Access
