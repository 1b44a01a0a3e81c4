import AchProofs.Cli.SectionKeys

namespace AchProofs.Cli.RenderMcp

open Foundation Cli.DottedKey Cli.Merge Cli.SectionKeys

structure RuntimeServer where
  id : String
  endpoint : String
deriving DecidableEq

structure Manifest where
  environment : String
  mcpServers : List RuntimeServer
  a2aAgents : List RuntimeServer
deriving DecidableEq

/-- The pattern the Environment resource puts on MCP server and A2A agent names. -/
def AdmissibleId (id : String) : Prop :=
  id ≠ "" ∧ ∀ c ∈ id.toList, c ∉ ['/', '\\', '?', '#', '%', ' '] ∧ 0x1f < c.toNat ∧ c.toNat ≠ 0x7f

instance (id : String) : Decidable (AdmissibleId id) :=
  @instDecidableAnd _ _ _ (List.decidableBAll ..)

variable {α : Type} (str : String → α)

def headersWithCredential (cred env : String) : KeyTree String α :=
  let h := if cred = "" then KeyTree.nil else KeyTree.nil.insert "x-ach-key" (.inl (str cred))
  if env = "" then h else h.insert "x-ach-environment" (.inl (str env))

def serverEntry (cred env endpoint : String) : KeyTree String α :=
  let entry := (KeyTree.nil.insert "type" (.inl (str "http"))).insert "url" (.inl (str endpoint))
  match headersWithCredential str cred env with
  | .nil => entry
  | h => entry.insert "headers" (.inr h)

def renderSection (cred env : String) (servers : List RuntimeServer) : KeyTree String α :=
  servers.foldl (fun t s => t.insert s.id (.inr (serverEntry str cred env s.endpoint))) .nil

def contributedPairs (m : Manifest) : List (String × String) :=
  m.mcpServers.map (fun s => ("mcpServers", s.id)) ++ m.a2aAgents.map (fun a => ("a2aAgents", a.id))

def sortedPairs (m : Manifest) : List (String × String) :=
  (contributedPairs m).insertionSort (fun p q => pairKey p ≤ pairKey q)

def contributedKeys (m : Manifest) : List String := (sortedPairs m).map pairKey

/-- The document written to .mcp.json. The server section is always there; the agent section is
dropped when it is empty. -/
def renderMcpJSON (m : Manifest) (cred : String) : KeyTree String α :=
  let doc :=
    KeyTree.nil.insert "mcpServers" (.inr (renderSection str cred m.environment m.mcpServers))
  match renderSection str cred m.environment m.a2aAgents with
  | .nil => doc
  | agents => doc.insert "a2aAgents" (.inr agents)

/-- Pruning the contributed keys out of the merged document gives the document back, and
extracting them gives what was rendered. -/
def Inverted (d : Doc α) (m : Manifest) (cred : String) : Prop :=
  let merged := deepMergeInto d.tree (renderMcpJSON str m cred)
  pruneDottedKeys merged (contributedKeys m) = (if d.tree = .nil then none else some d.tree) ∧
    (extractByKeys merged (contributedKeys m)).1 = renderMcpJSON str m cred

theorem mem_sortedPairs {m : Manifest} {p : String × String} :
    p ∈ sortedPairs m ↔ p ∈ contributedPairs m :=
  List.mem_insertionSort _

theorem mem_contributedPairs {m : Manifest} {p : String × String} :
    p ∈ contributedPairs m ↔
      (∃ s ∈ m.mcpServers, p = ("mcpServers", s.id)) ∨ ∃ a ∈ m.a2aAgents,
      p = ("a2aAgents", a.id) := by
  simp [contributedPairs, eq_comm]

theorem mem_idsOf_servers {m : Manifest} {i : String} :
    i ∈ idsOf (sortedPairs m) "mcpServers" ↔ i ∈ m.mcpServers.map RuntimeServer.id := by
  simp [idsOf, mem_sortedPairs, mem_contributedPairs, eq_comm]

theorem mem_idsOf_agents {m : Manifest} {i : String} :
    i ∈ idsOf (sortedPairs m) "a2aAgents" ↔ i ∈ m.a2aAgents.map RuntimeServer.id := by
  simp [idsOf, mem_sortedPairs, mem_contributedPairs, eq_comm]

theorem idsOf_other {m : Manifest} {s : String} (hm : s ≠ "mcpServers") (ha : s ≠ "a2aAgents") :
    idsOf (sortedPairs m) s = [] := by
  rw [List.eq_nil_iff_forall_not_mem]
  intro i
  simp [idsOf, mem_sortedPairs, mem_contributedPairs, hm, ha]

theorem find_renderSection (cred env : String) (servers : List RuntimeServer) (k : String) :
    (renderSection str cred env servers).find k ≠ none ↔ k ∈ servers.map RuntimeServer.id := by
  have key : ∀ t : KeyTree String α,
      (servers.foldl (fun t s => t.insert s.id (.inr (serverEntry str cred env s.endpoint))) t).find
        k
        ≠ none ↔ t.find k ≠ none ∨ k ∈ servers.map RuntimeServer.id := by
    induction servers with
    | nil => simp
    | cons s servers ih =>
      intro t
      rw [List.foldl_cons, ih, KeyTree.find_insert]
      by_cases hk : k = s.id <;> simp [hk]
  simpa [renderSection] using key .nil

theorem ordered_headers (cred env : String) : (headersWithCredential str cred env).Ordered := by
  unfold headersWithCredential
  have hkey : (if cred = "" then KeyTree.nil
      else KeyTree.nil.insert "x-ach-key" (.inl (str cred))).Ordered := by
    split
    · exact KeyTree.ordered_nil
    · exact KeyTree.ordered_insert_leaf KeyTree.ordered_nil _ _
  dsimp only
  split
  · exact hkey
  · exact KeyTree.ordered_insert_leaf hkey _ _

theorem ordered_serverEntry (cred env endpoint : String) :
    (serverEntry str cred env endpoint).Ordered := by
  have hentry : ((KeyTree.nil.insert "type" (.inl (str "http"))).insert "url"
      (.inl (str endpoint))).Ordered :=
    KeyTree.ordered_insert_leaf (KeyTree.ordered_insert_leaf KeyTree.ordered_nil _ _) _ _
  unfold serverEntry
  split
  · exact hentry
  · exact KeyTree.ordered_insert_node hentry _ (ordered_headers str cred env)

theorem ordered_renderSection (cred env : String) (servers : List RuntimeServer) :
    (renderSection str cred env servers).Ordered := by
  have key : ∀ t : KeyTree String α, t.Ordered →
      (servers.foldl (fun t s => t.insert s.id (.inr (serverEntry str cred env s.endpoint)))
        t).Ordered := by
    induction servers with
    | nil => exact fun t ht => ht
    | cons s servers ih =>
      exact fun t ht => ih _ (KeyTree.ordered_insert_node ht _ (ordered_serverEntry str _ _ _))
  exact key .nil KeyTree.ordered_nil

theorem renderSection_eq_nil (cred env : String) (servers : List RuntimeServer) :
    renderSection str cred env servers = .nil ↔ servers = [] := by
  constructor
  · intro h
    cases servers with
    | nil => rfl
    | cons s servers =>
      have := (find_renderSection str cred env (s :: servers) s.id).mpr (by simp)
      simp [h] at this
  · rintro rfl
    rfl

theorem find_render_servers (m : Manifest) (cred : String) :
    (renderMcpJSON str m cred).find "mcpServers" =
      some (.inr (renderSection str cred m.environment m.mcpServers)) := by
  unfold renderMcpJSON
  split <;> simp [KeyTree.find_insert]

theorem find_render_agents (m : Manifest) (cred : String) :
    (renderMcpJSON str m cred).find "a2aAgents" =
      if m.a2aAgents = [] then none
      else some (.inr (renderSection str cred m.environment m.a2aAgents)) := by
  unfold renderMcpJSON
  split
  · rename_i h
    rw [if_pos ((renderSection_eq_nil str _ _ _).mp h)]
    simp [KeyTree.find_insert]
  · rename_i h
    rw [if_neg (fun hn => h ((renderSection_eq_nil str _ _ _).mpr hn))]
    simp [KeyTree.find_insert]

theorem find_render_other (m : Manifest) (cred : String) {s : String}
    (hm : s ≠ "mcpServers") (ha : s ≠ "a2aAgents") : (renderMcpJSON str m cred).find s = none := by
  unfold renderMcpJSON
  split <;> simp [KeyTree.find_insert, hm, ha]

theorem ordered_renderMcpJSON (m : Manifest) (cred : String) :
    (renderMcpJSON str m cred).Ordered := by
  have hdoc : (KeyTree.nil.insert "mcpServers"
      (.inr (renderSection str cred m.environment m.mcpServers))).Ordered :=
    KeyTree.ordered_insert_node KeyTree.ordered_nil _ (ordered_renderSection str _ _ _)
  unfold renderMcpJSON
  split
  · exact hdoc
  · exact KeyTree.ordered_insert_node hdoc _ (ordered_renderSection str _ _ _)

end AchProofs.Cli.RenderMcp
