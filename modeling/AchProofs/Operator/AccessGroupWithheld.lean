import AchProofs.Foundation.Run
import AchProofs.Operator.AccessGroupShell

namespace AchProofs.Operator.AccessGroup

open Foundation.Run

/-- What one reconcile is given. LiteLLM may show any part of its servers, agents and teams, and the
spec may have been edited since the last one. The members a team is asked for stand with the
team. -/
structure Reading where
  env : Env
  fails : Call → Bool
  newID : String
  mcpServers : List (String × String)
  agents : List (String × String)
  teams : List Team

/-- What is left from one reconcile to the next. -/
structure Kept where
  group : Option Group
  unconverged : Option ℕ
  deriving DecidableEq, Repr

namespace Reading

def shown (p : Reading) (s : Kept) : LiteLLM := ⟨p.mcpServers, p.agents, p.teams, s.group⟩

def result (p : Reading) (s : Kept) : Result :=
  reconcileAccessGroup p.fails p.env p.newID s.unconverged (p.shown s)

end Reading

def Kept.step (s : Kept) (p : Reading) : Option Kept :=
  some ⟨(p.result s).world.group, (p.result s).unconverged⟩

def Reading.Unresolved (p : Reading) : Prop :=
  (∃ n ∈ p.env.mcpServers, n ≠ "" ∧ ∀ e ∈ p.mcpServers, e.1 ≠ n) ∨
    (∃ n ∈ p.env.a2aAgents, n ≠ "" ∧ ∀ e ∈ p.agents, e.1 ≠ n) ∨
    (∃ a ∈ p.env.authorizedTeams, ∀ t ∈ p.teams, t.teamID ≠ "" → t.alias_ ≠ "" → t.alias_ ≠ a) ∨
    p.env.unresolvedGuardrails ≠ []

def Reading.Answered (p : Reading) : Prop :=
  ∀ c ∈ [Call.listMCPServers, .listA2AAgents, .listAllTeams, .getTeamInfo, .getAccessGroup,
    .updateRemovals], p.fails c = false

/-- The teams that are desired. Without a shell the empty id stands in its place. -/
def Reading.teamIDs (p : Reading) (s : Kept) : List String :=
  (desired p.env (p.shown s) (p.shown s)
    ((byAlias (p.shown s).entries (shellTeamAlias p.env.name)).getD "")).teams

/-- The ids of a list after a write: none is new, and those that went are the listed ones that are
not wanted. -/
structure Revoked (entries : List (String × String)) (wanted old new : List String) : Prop where
  sublist : new.Sublist old
  only : ∀ id ∈ old, id ∉ new → id ∈ entries.map Prod.snd ∧ id ∉ wanted
  listed : ∀ id ∈ old, id ∈ entries.map Prod.snd → id ∉ wanted → id ∉ new

structure Reading.Withheld (p : Reading) (s : Kept) (old new : Bindings) : Prop where
  models : new.models = old.models.filter (fun m => m ∈ p.env.models ∨ m ∈ p.env.modelGroups)
  teams : new.teams = old.teams.filter (fun id => id ∈ p.teamIDs s)
  mcps : Revoked p.mcpServers (mcpIDs p.env (p.shown s)) old.mcps new.mcps
  agents : Revoked p.agents (agentIDs p.env (p.shown s)) old.agents new.agents

/-- What is promised of a pass with an unresolved reference. -/
structure Reading.Withholds (p : Reading) (s : Kept) : Prop where
  writes : (p.result s).writes.length ≤ 1
  written : ∀ w ∈ (p.result s).writes, ∃ g b, s.group = some g ∧ w.group = some ⟨g.id, b⟩ ∧
    p.Withheld s g.bindings b
  settled : p.Answered → ∀ g, s.group = some g →
    ∃ b, (p.result s).world.group = some ⟨g.id, b⟩ ∧ p.Withheld s g.bindings b
  absent : s.group = none → (p.result s).writes = [] ∧ (p.result s).world.group = none
  reason : (p.result s).reason ≠ .synced

/-- An id of the list that LiteLLM shows and that is not wanted is the one its name stands for: the
name is not empty, and no later entry has it too. -/
def Legible (entries : List (String × String)) (wanted old : List String) : Prop :=
  ∀ id ∈ old, id ∈ entries.map Prod.snd → id ∉ wanted → ∃ n, idOf entries n = some id

def Reading.Legible (p : Reading) (s : Kept) : Prop :=
  ∀ g, s.group = some g →
    AccessGroup.Legible p.mcpServers (mcpIDs p.env (p.shown s)) g.bindings.mcps ∧
      AccessGroup.Legible p.agents (agentIDs p.env (p.shown s)) g.bindings.agents

section Lists

variable {entries : List (String × String)} {wanted old : List String} {id n : String}

theorem mem_of_idOf (h : idOf entries n = some id) : (n, id) ∈ entries ∧ n ≠ "" := by
  obtain ⟨e, he, rfl⟩ := Option.map_eq_some_iff.mp h
  have hp := List.find?_some he
  rw [Bool.and_eq_true, decide_eq_true_eq, decide_eq_true_eq] at hp
  obtain ⟨hne, rfl⟩ := hp
  exact ⟨List.mem_reverse.mp (List.mem_of_find?_eq_some he), hne⟩

theorem idOf_eq_none_iff (hn : n ≠ "") : idOf entries n = none ↔ ∀ e ∈ entries, e.1 ≠ n := by
  rw [idOf, Option.map_eq_none_iff, List.find?_eq_none]
  constructor
  · rintro h e he rfl
    exact h e (List.mem_reverse.mpr he) (by simp [hn])
  · intro h e he hp
    exact h e (List.mem_reverse.mp he) (by simpa using (Bool.and_eq_true_iff.mp hp).2)

theorem mem_withoutListedUnwanted :
    id ∈ withoutListedUnwanted old wanted entries ↔
      id ∈ old ∧ ((∃ n, idOf entries n = some id) → id ∈ wanted) := by
  have hlisted : id ∈ (entries.filter (fun e => e.1 ≠ "")).filterMap (fun e => idOf entries e.1) ↔
      ∃ n, idOf entries n = some id := by
    rw [List.mem_filterMap]
    constructor
    · rintro ⟨e, -, h⟩
      exact ⟨e.1, h⟩
    · rintro ⟨n, h⟩
      obtain ⟨hmem, hne⟩ := mem_of_idOf h
      exact ⟨(n, id), List.mem_filter.mpr ⟨hmem, by simpa using hne⟩, h⟩
  rw [withoutListedUnwanted, List.mem_filter, Bool.or_eq_true, decide_eq_true_eq, decide_eq_true_eq,
    hlisted, imp_iff_not_or]

theorem revoked_iff :
    Revoked entries wanted old (withoutListedUnwanted old wanted entries) ↔
      Legible entries wanted old := by
  constructor
  · intro h id hold hlisted hunwanted
    have hgone := h.listed id hold hlisted hunwanted
    rw [mem_withoutListedUnwanted] at hgone
    by_contra hno
    exact hgone ⟨hold, fun hn => absurd hn hno⟩
  · intro h
    refine ⟨List.filter_sublist, fun id hold hgone => ?_, fun id hold hlisted hunwanted hstays =>
      ?_⟩
    · have hnot : ¬ ((∃ n, idOf entries n = some id) → id ∈ wanted) := fun himp =>
        hgone (mem_withoutListedUnwanted.mpr ⟨hold, himp⟩)
      obtain ⟨⟨n, hn⟩, hunwanted⟩ := Classical.not_imp.mp hnot
      exact ⟨List.mem_map_of_mem (mem_of_idOf hn).1, hunwanted⟩
    · exact hunwanted ((mem_withoutListedUnwanted.mp hstays).2 (h id hold hlisted hunwanted))

theorem eq_of_sameSet_filter {p : String → Bool} (h : sameSet old (old.filter p) = true) :
    old.filter p = old :=
  List.filter_sublist.eq_of_length (of_decide_eq_true (Bool.and_eq_true_iff.mp h).1).symm

end Lists

variable {p : Reading} {s s' : Kept}

theorem unresolved_names_pos {names : List String} {entries : List (String × String)} :
    0 < (mapResolve names entries).2.length ↔ ∃ n ∈ names, n ≠ "" ∧ ∀ e ∈ entries, e.1 ≠ n := by
  rw [List.length_pos_iff_exists_mem]
  refine exists_congr fun n => ?_
  rw [mapResolve, List.mem_filter, List.mem_filter, Option.isNone_iff_eq_none, decide_eq_true_eq,
    and_assoc]
  exact and_congr_right fun _ => and_congr_right fun hn => idOf_eq_none_iff hn

theorem byAlias_eq_none_iff {teams : List Team} {a : String} :
    byAlias (teams.map Team.entry) a = none ↔
      ∀ t ∈ teams, t.teamID ≠ "" → t.alias_ ≠ "" → t.alias_ ≠ a := by
  rw [byAlias, Option.map_eq_none_iff, List.find?_eq_none, List.forall_mem_map]
  refine forall₂_congr fun t _ => ?_
  rw [Bool.and_eq_true, Bool.and_eq_true, decide_eq_true_eq, decide_eq_true_eq, decide_eq_true_eq]
  simp only [Team.entry, not_and, and_imp, ne_eq]

theorem hasUnresolved_iff (s : Kept) : hasUnresolved p.env (p.shown s) = true ↔ p.Unresolved := by
  have hteams : 0 < (p.env.authorizedTeams.filter
      (fun a => (byAlias (p.shown s).entries a).isNone)).length ↔
      ∃ a ∈ p.env.authorizedTeams, ∀ t ∈ p.teams, t.teamID ≠ "" → t.alias_ ≠ "" → t.alias_ ≠ a := by
    rw [List.length_pos_iff_exists_mem]
    refine exists_congr fun a => ?_
    rw [List.mem_filter, Option.isNone_iff_eq_none]
    exact and_congr_right fun _ => byAlias_eq_none_iff
  rw [hasUnresolved, decide_eq_true_eq, Nat.add_pos_iff_pos_or_pos, Nat.add_pos_iff_pos_or_pos,
    Nat.add_pos_iff_pos_or_pos, unresolved_names_pos, unresolved_names_pos, hteams,
    List.length_pos_iff, Reading.Unresolved, or_assoc, or_assoc]
  rfl

def Reading.shrunk (p : Reading) (s : Kept) (g : Group) : Bindings :=
  AccessGroup.shrunk (p.shown s) g (desired p.env (p.shown s) (p.shown s)
    ((byAlias (p.shown s).entries (shellTeamAlias p.env.name)).getD ""))

theorem withheld_iff {g : Group} :
    p.Withheld s g.bindings (p.shrunk s g) ↔
      Legible p.mcpServers (mcpIDs p.env (p.shown s)) g.bindings.mcps ∧
        Legible p.agents (agentIDs p.env (p.shown s)) g.bindings.agents := by
  constructor
  · intro h
    exact ⟨revoked_iff.mp h.mcps, revoked_iff.mp h.agents⟩
  · rintro ⟨hmcps, hagents⟩
    refine ⟨List.filter_congr fun m _ => ?_, rfl, revoked_iff.mpr hmcps, revoked_iff.mpr hagents⟩
    have hmem : m ∈ unionSorted p.env.models p.env.modelGroups ↔
        m ∈ p.env.models ∨ m ∈ p.env.modelGroups := by
      rw [unionSorted, compactSorted, List.mem_mergeSort, List.mem_dedup, List.mem_append]
    exact decide_eq_decide.mpr hmem

theorem shrinkAccessGroup_spec (fails : Call → Bool) (b : Bindings) (u : Option ℕ) (w : LiteLLM) :
    (shrinkAccessGroup fails b u w).reason ≠ .synced ∧
      (((shrinkAccessGroup fails b u w).world = w ∧ (shrinkAccessGroup fails b u w).writes = [] ∧
          (fails .updateRemovals = false →
            ∀ g, w.group = some g → AccessGroup.shrunk w g b = g.bindings)) ∨
        (fails .updateRemovals = false ∧ ∃ g, w.group = some g ∧
          (shrinkAccessGroup fails b u w).world = w.updateAccessGroup g (AccessGroup.shrunk w g b) ∧
          (shrinkAccessGroup fails b u w).writes = [(shrinkAccessGroup fails b u w).world])) := by
  rw [shrinkAccessGroup]
  cases hg : w.group with
  | none => exact ⟨nofun, .inl ⟨rfl, rfl, fun _ g h => (nomatch h)⟩⟩
  | some g =>
    dsimp only
    split_ifs with hsame hfail
    · refine ⟨nofun, .inl ⟨rfl, rfl, fun _ g' hg' => ?_⟩⟩
      obtain rfl := Option.some.inj hg'
      simp only [Bool.and_eq_true] at hsame
      obtain ⟨⟨⟨hmodels, hmcps⟩, hagents⟩, hteams⟩ := hsame
      refine Bindings.mk.injEq .. |>.mpr ⟨eq_of_sameSet_filter hmodels, eq_of_sameSet_filter hmcps,
        eq_of_sameSet_filter hagents, eq_of_sameSet_filter hteams⟩
    · exact ⟨nofun, .inl ⟨rfl, rfl, fun h => absurd (hfail.symm.trans h) nofun⟩⟩
    · exact ⟨nofun, .inr ⟨Bool.not_eq_true _ ▸ hfail, g, rfl, rfl, rfl⟩⟩

/-- With an unresolved reference only the reads can fail before the group is shrunk. -/
theorem result_eq_of_unresolved (h : p.Unresolved) (s : Kept) :
    p.result s =
      if p.fails .listMCPServers || p.fails .listA2AAgents || p.fails .listAllTeams ||
          p.fails .getTeamInfo || p.fails .getAccessGroup then
        ⟨p.shown s, [], .resolveFailed, s.unconverged⟩
      else
        shrinkAccessGroup p.fails (desired p.env (p.shown s) (p.shown s)
          ((byAlias (p.shown s).entries (shellTeamAlias p.env.name)).getD "")) s.unconverged
          (p.shown s) := by
  have hun := (hasUnresolved_iff s).mpr h
  rw [Reading.result, reconcileAccessGroup]
  by_cases hlist : (p.fails .listMCPServers || p.fails .listA2AAgents || p.fails .listAllTeams) =
    true
  · rw [if_pos hlist, if_pos (by rw [hlist, Bool.true_or, Bool.true_or])]
  · rw [Bool.not_eq_true] at hlist
    simp only [hlist, hun, Bool.false_or, Bool.false_eq_true, if_true, if_false, writeAccessGroup,
      List.nil_append]

theorem result_of_unresolved (h : p.Unresolved) (s : Kept) :
    (p.result s).reason ≠ .synced ∧
      (((p.result s).world = p.shown s ∧ (p.result s).writes = [] ∧
          (p.Answered → ∀ g, s.group = some g → p.shrunk s g = g.bindings)) ∨
        (p.Answered ∧ ∃ g, s.group = some g ∧
          (p.result s).world = (p.shown s).updateAccessGroup g (p.shrunk s g) ∧
          (p.result s).writes = [(p.result s).world])) := by
  rw [result_eq_of_unresolved h]
  split_ifs with hreads
  · refine ⟨nofun, .inl ⟨rfl, rfl, fun ha => absurd hreads ?_⟩⟩
    simp only [Reading.Answered, List.forall_mem_cons] at ha
    simp [ha]
  · obtain ⟨hreason, ⟨hworld, hwrites, hsame⟩ | ⟨hput, hwritten⟩⟩ := shrinkAccessGroup_spec p.fails
      (desired p.env (p.shown s) (p.shown s)
        ((byAlias (p.shown s).entries (shellTeamAlias p.env.name)).getD "")) s.unconverged
          (p.shown s)
    · exact ⟨hreason, .inl ⟨hworld, hwrites, fun ha => hsame (ha .updateRemovals (by simp))⟩⟩
    · refine ⟨hreason, .inr ⟨?_, hwritten⟩⟩
      simp only [Bool.or_eq_true, not_or, Bool.not_eq_true] at hreads
      simp [Reading.Answered, hreads, hput]

theorem group_of_answered (h : p.Unresolved) (ha : p.Answered) {g : Group} (hg : s.group = some g) :
    (p.result s).world.group = some ⟨g.id, p.shrunk s g⟩ := by
  obtain ⟨-, ⟨hworld, -, hsame⟩ | ⟨-, g', hg', hworld, -⟩⟩ := result_of_unresolved h s
  · rw [hworld, hsame ha g hg]
    exact hg
  · obtain rfl := Option.some.inj (hg.symm.trans hg')
    rw [hworld]
    rfl

theorem withholds_iff (h : p.Unresolved) : p.Withholds s ↔ (p.Answered → p.Legible s) := by
  constructor
  · intro hw ha g hg
    obtain ⟨b, hb, hheld⟩ := hw.settled ha g hg
    obtain ⟨-, rfl⟩ := Group.mk.inj (Option.some.inj ((group_of_answered h ha hg).symm.trans hb))
    exact withheld_iff.mp hheld
  · intro hlegible
    have hheld : p.Answered → ∀ g, s.group = some g → p.Withheld s g.bindings (p.shrunk s g) :=
      fun ha g hg => withheld_iff.mpr (hlegible ha g hg)
    have hsettled : p.Answered → ∀ g, s.group = some g → ∃ b,
        (p.result s).world.group = some ⟨g.id, b⟩ ∧ p.Withheld s g.bindings b :=
      fun ha g hg => ⟨_, group_of_answered h ha hg, hheld ha g hg⟩
    obtain ⟨hreason, ⟨hworld, hwrites, -⟩ | ⟨ha, g, hg, -, hwrites⟩⟩ := result_of_unresolved h s
    · refine ⟨?_, ?_, hsettled, fun hnone => ⟨hwrites, ?_⟩, hreason⟩
      · rw [hwrites]
        exact Nat.zero_le 1
      · rw [hwrites]
        nofun
      · rw [hworld]
        exact hnone
    · refine ⟨?_, fun w hw => ?_, hsettled, fun hnone => (nomatch hg.symm.trans hnone), hreason⟩
      · rw [hwrites]
        exact Nat.le_refl 1
      · rw [hwrites, List.mem_singleton] at hw
        exact ⟨g, _, hg, hw ▸ group_of_answered h ha hg, hheld ha g hg⟩

section Stretch

/-- Each list of one group is part of that of the other. -/
structure Bindings.Within (b b' : Bindings) : Prop where
  models : b.models.Sublist b'.models
  mcps : b.mcps.Sublist b'.mcps
  agents : b.agents.Sublist b'.agents
  teams : b.teams.Sublist b'.teams

theorem Bindings.Within.refl (b : Bindings) : b.Within b :=
  ⟨List.Sublist.refl _, List.Sublist.refl _, List.Sublist.refl _, List.Sublist.refl _⟩

theorem Bindings.Within.trans {a b c : Bindings} (h : a.Within b) (h' : b.Within c) : a.Within c :=
  ⟨h.models.trans h'.models, h.mcps.trans h'.mcps, h.agents.trans h'.agents, h.teams.trans h'.teams⟩

/-- The group is the one there was, with nothing more in it. -/
def Kept.Shrinks (s s' : Kept) : Prop :=
  (s.group = none → s'.group = none) ∧
    ∀ g, s.group = some g → ∃ b, s'.group = some ⟨g.id, b⟩ ∧ b.Within g.bindings

theorem Kept.Shrinks.trans {s₁ s₂ s₃ : Kept} (h : s₁.Shrinks s₂) (h' : s₂.Shrinks s₃) :
    s₁.Shrinks s₃ := by
  refine ⟨fun hnone => h'.1 (h.1 hnone), fun g hg => ?_⟩
  obtain ⟨b, hb, hwithin⟩ := h.2 g hg
  obtain ⟨b', hb', hwithin'⟩ := h'.2 _ hb
  exact ⟨b', hb', hwithin'.trans hwithin⟩

theorem shrinks_step (h : p.Unresolved) (hstep : s.step p = some s') : s.Shrinks s' := by
  obtain rfl := Option.some.inj hstep
  obtain ⟨-, ⟨hworld, -⟩ | ⟨-, g, hg, hworld, -⟩⟩ := result_of_unresolved h s
  · have hgroup : (p.result s).world.group = s.group := congrArg LiteLLM.group hworld
    exact ⟨fun hnone => hgroup.trans hnone, fun g hg => ⟨_, hgroup.trans hg, .refl _⟩⟩
  · refine ⟨fun hnone => (nomatch hg.symm.trans hnone), fun g' hg' => ?_⟩
    obtain rfl := Option.some.inj (hg.symm.trans hg')
    refine ⟨p.shrunk s g, congrArg LiteLLM.group hworld, ?_⟩
    exact ⟨List.filter_sublist, List.filter_sublist, List.filter_sublist, List.filter_sublist⟩

/-- As long as some reference is unresolved in each reconcile, the group only shrinks. -/
theorem shrinks_of_run {ps : List Reading} (h : ∀ p ∈ ps, p.Unresolved)
    (hr : run Kept.step s ps = some s') : s.Shrinks s' := by
  induction ps generalizing s with
  | nil =>
    obtain rfl := Option.some.inj hr
    exact ⟨id, fun g hg => ⟨g.bindings, hg, .refl _⟩⟩
  | cons p ps ih =>
    obtain ⟨s₁, h₁, h₂⟩ := Option.bind_eq_some_iff.mp hr
    have hfirst := shrinks_step (h p List.mem_cons_self) h₁
    exact hfirst.trans (ih (fun q hq => h q (List.mem_cons_of_mem p hq)) h₂)

end Stretch

/-- In every run, the passes with an unresolved reference grant nothing and revoke what they should
exactly if, where their calls succeed, no listed and unwanted id of the group hides behind an empty
or repeated name. -/
theorem nothing_granted_iff (s : Kept) (ps : List Reading) :
    Along Kept.step (fun s p => p.Unresolved → p.Withholds s) s ps ↔
      Along Kept.step (fun s p => p.Unresolved → p.Answered → p.Legible s) s ps := by
  have htrue : ∀ (s : Kept) (p : Reading) (s' : Kept) (ok : Prop), True → ok → s.step p = some s' →
      True := fun _ _ _ _ _ _ _ => trivial
  constructor
  · exact along_of_preserves (fun s p s' => htrue s p s' _)
      (fun s p _ hok hun => (withholds_iff hun).mp (hok hun)) trivial
  · exact along_of_preserves (fun s p s' => htrue s p s' _)
      (fun s p _ hok hun => (withholds_iff hun).mpr (hok hun)) trivial

def serverEnv (mcpServers : List String) : Env :=
  ⟨"e", 1, [], [], mcpServers, [], [], [], [], [], [], id⟩

def serverReading (names : List String) (servers : List (String × String)) : Reading :=
  ⟨serverEnv names, noFailure, "g", servers, [], [newShellTeam (serverEnv names)]⟩

/-- The server `s1` is granted. -/
def serverGranted : Kept := ⟨some ⟨"g", ⟨[], ["s1"], [], ["ach-env-e"]⟩⟩, none⟩

theorem run_serverReading :
    run Kept.step ⟨none, none⟩ [serverReading ["m"] [("m", "s1")]] = some serverGranted := by
  decide +kernel

theorem serverReading_unresolved {servers : List (String × String)}
    (h : ∀ e ∈ servers, e.1 ≠ "x") : (serverReading ["x"] servers).Unresolved :=
  .inl ⟨"x", List.mem_singleton_self _, by decide, h⟩

theorem server_only_leaves :
    ∃ s', run Kept.step serverGranted [serverReading ["x"] [("m", "s1")]] = some s' ∧
      serverGranted.Shrinks s' := by
  have hr : run Kept.step serverGranted [serverReading ["x"] [("m", "s1")]] = some _ := rfl
  refine ⟨_, hr, shrinks_of_run (List.forall_mem_singleton.mpr (serverReading_unresolved ?_)) hr⟩
  decide

/-- When the spec names an unknown server in the place of `m`, the listed `m` leaves. -/
theorem listed_server_leaves :
    run Kept.step ⟨none, none⟩ [serverReading ["m"] [("m", "s1")]] = some serverGranted ∧
      (serverReading ["x"] [("m", "s1")]).Withholds serverGranted ∧
      ((serverReading ["x"] [("m", "s1")]).result serverGranted).world.group =
        some ⟨"g", ⟨[], [], [], ["ach-env-e"]⟩⟩ := by
  refine ⟨run_serverReading, ?_, by decide +kernel⟩
  have hrun := (nothing_granted_iff serverGranted [serverReading ["x"] [("m", "s1")]]).mpr ?_
  · exact hrun.1 (serverReading_unresolved (by decide))
  · refine ⟨fun _ _ g hg => ?_, fun _ _ => trivial⟩
    obtain rfl := Option.some.inj hg
    refine ⟨fun id hid _ _ => ⟨"m", ?_⟩, fun id hid => (nomatch hid)⟩
    obtain rfl := List.mem_singleton.mp hid
    decide +kernel

/-- A second server of the name `m` is registered before the spec drops it: the first one is listed
and no longer wanted, and stays in the group. -/
theorem listed_server_stays :
    run Kept.step ⟨none, none⟩ [serverReading ["m"] [("m", "s1")]] = some serverGranted ∧
      (serverReading ["x"] [("m", "s1"), ("m", "s2")]).Unresolved ∧
      (serverReading ["x"] [("m", "s1"), ("m", "s2")]).Answered ∧
      ((serverReading ["x"] [("m", "s1"), ("m", "s2")]).result serverGranted).writes = [] ∧
      ¬ (serverReading ["x"] [("m", "s1"), ("m", "s2")]).Withholds serverGranted := by
  refine ⟨run_serverReading, serverReading_unresolved (by decide), fun _ _ => rfl,
    by decide +kernel, fun h => ?_⟩
  obtain ⟨b, hb, hheld⟩ := h.settled (fun _ _ => rfl) _ rfl
  have hgroup :
      ((serverReading ["x"] [("m", "s1"), ("m", "s2")]).result serverGranted).world.group =
      serverGranted.group := by decide +kernel
  obtain ⟨-, rfl⟩ := Group.mk.inj (Option.some.inj (hgroup.symm.trans hb))
  exact hheld.mcps.listed "s1" (by decide) (by decide) (by decide +kernel) (by decide)

end AchProofs.Operator.AccessGroup
