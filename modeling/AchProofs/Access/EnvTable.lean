import Mathlib

namespace AchProofs.Access

inductive Origin where
  | cr
  | ui
deriving DecidableEq

structure EnvironmentRow where
  ns : String
  name : String
  authorizedTeams : List String
  contextPrompts : List String
  contextPlugins : List String
  contextArtifacts : List String
  contextSkills : List String
  runtimeModels : List String
  runtimeMCPServers : List String
  runtimeA2AAgents : List String
  runtimeGuardrails : List String
  notice : String
  origin : Origin
deriving DecidableEq

def EnvironmentRow.key (row : EnvironmentRow) : String × String := (row.ns, row.name)

/-- The environments table, with its primary key over namespace and name. -/
structure EnvTable where
  rows : List EnvironmentRow
  keyed : (rows.map EnvironmentRow.key).Nodup

namespace EnvTable

def getEnvironmentByName (t : EnvTable) (ns name : String) : Option EnvironmentRow :=
  t.rows.find? (fun r => r.ns = ns ∧ r.name = name)

def listEnvironments (t : EnvTable) (ns : String) : List EnvironmentRow :=
  t.rows.filter (fun r => r.ns = ns)

def without (t : EnvTable) (row : EnvironmentRow) : EnvTable where
  rows := t.rows.filter (fun r => r.key ≠ row.key)
  keyed := t.keyed.sublist (List.filter_sublist.map _)

variable {row : EnvironmentRow} {t : EnvTable}

theorem eq_of_key {r : EnvironmentRow} (hr : r ∈ t.rows) (hrow : row ∈ t.rows)
    (h : r.key = row.key) :
    r = row :=
  List.inj_on_of_nodup_map t.keyed hr hrow h

theorem get_eq_some (h : row ∈ t.rows) : t.getEnvironmentByName row.ns row.name = some row := by
  obtain ⟨r, hr⟩ : ∃ r, t.getEnvironmentByName row.ns row.name = some r := by
    rw [← Option.isSome_iff_exists, getEnvironmentByName, List.find?_isSome]
    exact ⟨row, h, by simp⟩
  have hkey : r.ns = row.ns ∧ r.name = row.name := by simpa using List.find?_some hr
  rw [hr, eq_of_key (List.mem_of_find?_eq_some hr) h (Prod.ext hkey.1 hkey.2)]

theorem get_without_self (t : EnvTable) (row : EnvironmentRow) :
    (t.without row).getEnvironmentByName row.ns row.name = none := by
  simp only [getEnvironmentByName, without, List.find?_eq_none, List.mem_filter]
  rintro r ⟨-, hr⟩ hp
  have hkey : r.ns = row.ns ∧ r.name = row.name := by simpa using hp
  simp [EnvironmentRow.key, hkey] at hr

theorem get_without_ne (t : EnvTable) {ns name : String} (h : (ns, name) ≠ row.key) :
    (t.without row).getEnvironmentByName ns name = t.getEnvironmentByName ns name := by
  simp only [getEnvironmentByName, without, List.find?_filter]
  congr 1
  funext r
  by_cases hr : r.ns = ns ∧ r.name = name
  · obtain ⟨rfl, rfl⟩ := hr
    have hkey : r.key ≠ row.key := h
    simp [hkey]
  · simp [hr]

theorem list_split (h : row ∈ t.rows) :
    ∃ before after, t.listEnvironments row.ns = before ++ row :: after ∧
      (t.without row).listEnvironments row.ns = before ++ after := by
  obtain ⟨u, v, huv⟩ := List.append_of_mem h
  have hkeep : ∀ r ∈ u ++ v, r.key ≠ row.key := by
    intro r hr heq
    have hnd := t.keyed
    rw [huv, List.map_append, List.map_cons, List.nodup_middle, List.nodup_cons] at hnd
    exact hnd.1 (heq ▸ by simpa using List.mem_map_of_mem (f := EnvironmentRow.key) hr)
  have hu : u.filter (fun r => r.key ≠ row.key) = u :=
    List.filter_eq_self.mpr (fun r hr => by simpa using hkeep r (by simp [hr]))
  have hv : v.filter (fun r => r.key ≠ row.key) = v :=
    List.filter_eq_self.mpr (fun r hr => by simpa using hkeep r (by simp [hr]))
  refine ⟨u.filter (fun r => r.ns = row.ns), v.filter (fun r => r.ns = row.ns), ?_, ?_⟩
  · simp [listEnvironments, huv]
  · change (t.rows.filter (fun r => r.key ≠ row.key)).filter (fun r => r.ns = row.ns) = _
    rw [huv, List.filter_append, List.filter_cons_of_neg (by simp), hu, hv, List.filter_append]

theorem list_without_ne (t : EnvTable) {ns : String} (h : row.ns ≠ ns) :
    (t.without row).listEnvironments ns = t.listEnvironments ns := by
  simp only [listEnvironments, without, List.filter_filter]
  refine List.filter_congr (fun r _ => ?_)
  by_cases hr : r.ns = ns
  · have hkey : r.key ≠ row.key := fun heq => h ((congrArg Prod.fst heq).symm.trans hr)
    simp [hr, hkey]
  · simp [hr]

end EnvTable

end AchProofs.Access
