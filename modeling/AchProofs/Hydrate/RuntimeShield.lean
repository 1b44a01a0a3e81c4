import AchProofs.Hydrate.Agreement
import AchProofs.Hydrate.RuntimeDrop

namespace AchProofs.Hydrate

open Foundation Cli.Merge Cli.DottedKey Cli.SectionKeys

variable {α τ : Type}

def serverAt (disk : Disk α) (path : String) (p : String × String) : Option (Value String α) :=
  (docOf (disk path)).bind fun d => entryAt d.tree p

theorem serverAt_of_docOf {disk : Disk α} {path : String} {d : Doc α}
    (h : docOf (disk path) = some d)
    (p : String × String) : serverAt disk path p = entryAt d.tree p := by
  simp [serverAt, h]

/-- A document without an entry leaves that of another as it is, unless a scalar stands in place of
the section. -/
theorem entryAt_merge_iff (t : KeyTree String α) {u : KeyTree String α} {p : String × String}
    (h : entryAt u p = none) (v : Value String α) :
    entryAt (t.merge u) p = some v ↔ entryAt t p = some v ∧ ∀ a, u.find p.1 ≠ some (.inl a) := by
  unfold entryAt at *
  cases hf : u.find p.1 with
  | none =>
    rw [KeyTree.get_congr (KeyTree.find_merge_of_none hf)]
    simp
  | some x =>
    cases x with
    | inl a =>
      have hchild : (t.merge u).child p.1 = .nil := by
        refine KeyTree.child_eq_nil fun s => ?_
        rw [KeyTree.find_merge_of_some hf, KeyTree.mergeValue_leaf]
        simp
      rw [get_pair, hchild]
      simp
    | inr x =>
      have hmiss : u.Misses [p.1, p.2] := by
        rw [get_pair, KeyTree.child_of_find hf] at h
        simp [KeyTree.Misses, hf, h]
      rw [KeyTree.get_merge_of_misses t hmiss]
      simp

section Plugins

variable {isNull : α → Bool} {sections : List String}

def PluginMcp.projected (q : PluginMcp isNull sections) (path : String) : ProjectedWrite α :=
  ⟨q.plugin, q.write path, false, false⟩

/-- If the plugin's document is published, it has no server under the name of the runtime's, unless
the removal finds it, and no scalar in place of its section. -/
def Harmless (rt : RuntimeMcp α sections) (p : String × String) (q : PluginMcp isNull sections) :
    Prop :=
  Joins rt q → (DotFree p.2 ∨ entryAt q.top.tree p = none) ∧
    ∀ a, q.top.tree.find p.1 ≠ some (.inl a)

/-- After the drop the write is not published or has no entry for the server. -/
def Clear (rt : RuntimeMcp α sections) (rows : List (FileEntry α)) (p : String × String)
    (q : PluginMcp isNull sections) : Prop :=
  ∀ w d, dropRuntimeOwnedMCP (q.write rt.path) rows = some (true, w) → w.content = .doc d →
    entryAt d.tree p = none

variable {rt : RuntimeMcp α sections} {rows : List (FileEntry α)} {p : String × String}
  {q : PluginMcp isNull sections} (hrows : ownedKeys rows rt.path = rt.keys)

include hrows

theorem clear_iff (hp : p ∈ rt.owned) :
    Clear rt rows p q ↔ (Joins rt q → DotFree p.2 ∨ entryAt q.top.tree p = none) := by
  constructor
  · intro h hj
    obtain ⟨w, d, hdrop, hd⟩ := drop_of_joins hrows hj
    exact (hd.entry p hp).mp (h w d hdrop hd.content)
  · intro h w d hdrop hc
    by_cases hj : Joins rt q
    · obtain ⟨w', d', hdrop', hd⟩ := drop_of_joins hrows hj
      cases hdrop.symm.trans hdrop'
      cases hc.symm.trans hd.content
      exact (hd.entry p hp).mpr (h hj)
    · obtain ⟨w', hdrop'⟩ := drop_of_not_joins hrows hj
      cases hdrop.symm.trans hdrop'

theorem planPlugin_mcp (o : Opts) (prev : Option (StateFile α)) (before : List (ProjectedWrite α)) :
    (¬ Joins rt q ∧ planPlugin o prev rows before (q.projected rt.path) = []) ∨
      Joins rt q ∧ ∃ w d, Dropped rt q w d ∧
        planPlugin o prev rows before (q.projected rt.path) =
          [.publish .plugins q.plugin (priorPluginRow o prev w.path q.plugin) w] := by
  by_cases hj : Joins rt q
  · obtain ⟨w, d, hdrop, hd⟩ := drop_of_joins hrows hj
    refine .inr ⟨hj, w, d, hd, ?_⟩
    simp [planPlugin, PluginMcp.projected, PluginMcp.write] at hdrop ⊢
    rw [hdrop]
  · obtain ⟨w, hdrop⟩ := drop_of_not_joins hrows hj
    refine .inl ⟨hj, ?_⟩
    simp [planPlugin, PluginMcp.projected, PluginMcp.write] at hdrop ⊢
    rw [hdrop]

variable [DecidableEq α] {site : Site α τ} {o : Opts} {prev : Option (StateFile α)}
  {qs : List (PluginMcp isNull sections)} {acc acc' : Disk α × State α} {v : Value String α}

/-- Harmless documents, whatever rows the state has for them. -/
theorem serverAt_plugins (hdry : o.dryRun = false) (hp : p ∈ rt.owned)
    (hqs : ∀ q ∈ qs, Harmless rt p q) (before : List (ProjectedWrite α))
    (h : (planPlugins o prev rows before (qs.map (·.projected rt.path))).foldlM
      (publishPlanned site o) acc = some acc') (hv : serverAt acc.1 rt.path p = some v) :
    serverAt acc'.1 rt.path p = some v := by
  induction qs generalizing before acc with
  | nil =>
    cases h
    exact hv
  | cons q qs ih =>
    have hrest := fun q hq => hqs q (List.mem_cons_of_mem _ hq)
    rw [List.map_cons, planPlugins] at h
    obtain ⟨-, hplan⟩ | ⟨hj, w, d, hd, hplan⟩ := planPlugin_mcp (q := q) hrows o prev before
    · rw [hplan, List.nil_append] at h
      exact ih hrest _ h hv
    rw [hplan, List.singleton_append, List.foldlM_cons] at h
    obtain ⟨mid, hstep, h⟩ := Option.bind_eq_some_iff.mp h
    refine ih hrest _ h ?_
    cases hpub : publish site o acc.1 (priorPluginRow o prev w.path q.plugin) w q.plugin with
    | refused => simp [publishPlanned, hpub] at hstep
    | failed => simp [publishPlanned, hpub] at hstep
    | done disk' e =>
      simp only [publishPlanned, hpub] at hstep
      cases hstep
      obtain ⟨old, hold, hidle, hwritten⟩ := publish_deep site o hdry hd.merge hd.content hpub
      rw [hd.path] at hold
      by_cases hi : Idle acc.1 (priorPluginRow o prev w.path q.plugin) w
      · rw [hidle hi]
        exact hv
      · obtain ⟨hentry, hleaf⟩ := hqs q (List.mem_cons_self ..) hj
        have hdoc := hwritten hi
        rw [hd.path] at hdoc
        rw [serverAt_of_docOf hold] at hv
        rw [serverAt_of_docOf hdoc]
        exact (entryAt_merge_iff old.tree ((hd.entry p hp).mpr hentry) v).mpr
          ⟨hv, fun a ha => hleaf a ((hd.leaf p.1 a).mp ha)⟩

omit hrows [DecidableEq α] in
theorem priorPluginRow_nil {f : StateFile α} (hf : f.plugins = []) (target plugin : String) :
    priorPluginRow o (some f) target plugin = none := by
  simp [priorPluginRow, rowsOf, State.bucket, hf, findEntry]

theorem serverAt_new_plugins {f : StateFile α} (hf : f.plugins = []) (hdry : o.dryRun = false)
    (hp : p ∈ rt.owned) (hpath : o.isGlobal = true ∨ site.contained rt.path = true)
    (hqs : ∀ q ∈ qs, Clear rt rows p q) (before : List (ProjectedWrite α)) {d : Doc α}
    (hd : docOf (acc.1 rt.path) = some d) :
    ∃ acc', (planPlugins o (some f) rows before (qs.map (·.projected rt.path))).foldlM
        (publishPlanned site o) acc = some acc' ∧
      (serverAt acc'.1 rt.path p = some v ↔ entryAt d.tree p = some v ∧
        ∀ q ∈ qs, Joins rt q → ∀ a, q.top.tree.find p.1 ≠ some (.inl a)) := by
  induction qs generalizing before acc d with
  | nil => exact ⟨acc, rfl, by simp [serverAt_of_docOf hd]⟩
  | cons q qs ih =>
    have hrest := fun q hq => hqs q (List.mem_cons_of_mem _ hq)
    rw [List.map_cons, planPlugins]
    obtain ⟨hj, hplan⟩ | ⟨hj, w, new, hnew, hplan⟩ :=
      planPlugin_mcp (q := q) hrows o (some f) before
    · obtain ⟨acc', hrun, hiff⟩ := ih hrest (before ++ [q.projected rt.path]) hd
      refine ⟨acc', by rw [hplan]; exact hrun, hiff.trans ?_⟩
      simp [hj]
    have hentry : entryAt new.tree p = none :=
      (hnew.entry p hp).mpr ((clear_iff hrows hp).mp (hqs q (List.mem_cons_self ..)) hj)
    rw [← hnew.path] at hd hpath
    obtain ⟨disk', e, hpub, hdoc⟩ :=
      publish_deep_new site o hdry hnew.merge hnew.content hd hpath q.plugin
    rw [hnew.path] at hdoc
    have hnext : docOf ((disk', acc.2.record e .plugins).1 rt.path) = some (mergeDocs d new) := hdoc
    obtain ⟨acc', hrun, hiff⟩ := ih hrest (before ++ [q.projected rt.path]) hnext
    refine ⟨acc', ?_, hiff.trans ?_⟩
    · rw [hplan, List.singleton_append, List.foldlM_cons, priorPluginRow_nil hf]
      simp only [publishPlanned, hpub]
      exact hrun
    · have hmerge := entryAt_merge_iff d.tree hentry v
      simp only [ne_eq, hnew.leaf] at hmerge
      change entryAt (d.tree.merge new.tree) p = some v ∧ _ ↔ _
      rw [hmerge, List.forall_mem_cons]
      tauto

end Plugins

section Shield

variable {isNull : α → Bool} {sections : List String} [DecidableEq α] (site : Site α τ) (o : Opts)

/-- Wherever an older entry and the one of the runtime's own write are both objects, every old key
is rendered. If that write is idle, the entry is in place already. -/
def Settles (disk : Disk α) (prior : Option (FileEntry α)) (rt : RuntimeMcp α sections)
    (p : String × String) : Prop :=
  ∀ old v, docOf (disk rt.path) = some old → entryAt rt.doc.tree p = some v →
    (Idle disk prior rt.write → entryAt old.tree p = some v) ∧
      ∀ s s', entryAt old.tree p = some (.inr s) → v = .inr s' → s.Within s'

/-- `Render` for the file of servers: the runtime's write, then those of the plugins. -/
def renderMcp (disk : Disk α) (f : StateFile α) (rt : RuntimeMcp α sections)
    (qs : List (PluginMcp isNull sections)) : Option (Disk α × State α) :=
  site.render o disk (planRuntime (some f) [rt.write] ++
    planPlugins o (some f) (runtimeOwned o (some f) [rt.write]) [] (qs.map (·.projected rt.path)))

/-- After the drop every plugin's write is unpublished or without an entry for the server, and
whatever rows the state has for the plugins, the entry after the render is the rendered one. -/
def Shielded (disk : Disk α) (f : StateFile α) (rt : RuntimeMcp α sections)
    (qs : List (PluginMcp isNull sections)) (p : String × String) : Prop :=
  (∀ q ∈ qs, Clear rt (runtimeOwned o (some f) [rt.write]) p q) ∧
    ∀ plugins r, renderMcp site o disk { f with plugins := plugins } rt qs = some r →
      serverAt r.1 rt.path p = entryAt rt.doc.tree p

omit [DecidableEq α] in
theorem ownedKeys_runtimeOwned (hrt : o.includeRuntime = true) (f : StateFile α)
    (rt : RuntimeMcp α sections) :
    ownedKeys (runtimeOwned o (some f) [rt.write]) rt.path = rt.keys := by
  simp [runtimeOwned, hrt, ownedKeys, RuntimeMcp.write, freshHash]

variable {site o} {disk disk₁ : Disk α} {f : StateFile α} {rt : RuntimeMcp α sections}
  {row : FileEntry α} {p : String × String}

theorem serverAt_runtime (hdry : o.dryRun = false)
    (hpub : publish site o disk (findEntry f.adapter rt.path) rt.write "" = .done disk₁ row)
    {v : Value String α} (hv : entryAt rt.doc.tree p = some v) :
    ∃ d, docOf (disk₁ rt.path) = some d ∧
      (entryAt d.tree p = some v ↔ Settles disk (findEntry f.adapter rt.path) rt p) := by
  obtain ⟨old, hold, hidle, hwritten⟩ := publish_deep site o hdry rfl rfl hpub
  change docOf (disk rt.path) = some old at hold
  have hsettles : Settles disk (findEntry f.adapter rt.path) rt p ↔
      (Idle disk (findEntry f.adapter rt.path) rt.write → entryAt old.tree p = some v) ∧
        ∀ s s', entryAt old.tree p = some (.inr s) → v = .inr s' → s.Within s' := by
    simp only [Settles, hold, hv, Option.some.injEq]
    exact ⟨fun h => h old v rfl rfl, fun h _ _ ho hv => ho ▸ hv ▸ h⟩
  rw [hsettles]
  by_cases hi : Idle disk (findEntry f.adapter rt.path) rt.write
  · refine ⟨old, by rw [hidle hi]; exact hold, ?_⟩
    refine ⟨fun h => ⟨fun _ => h, fun s s' hs hs' => ?_⟩, fun h => h.1 hi⟩
    rw [h, hs'] at hs
    cases hs
    exact .refl s
  · refine ⟨mergeDocs old rt.doc, hwritten hi, ?_⟩
    have hmerged : entryAt (mergeDocs old rt.doc).tree p =
        some (KeyTree.mergeValue (entryAt old.tree p) v) :=
      KeyTree.get_merge_of_get old.tree hv
    have hwithin := KeyTree.mergeValue_eq_iff (o := entryAt old.tree p)
      (fun _ hw => KeyTree.orderedValue_of_get old.ordered hw)
      (KeyTree.orderedValue_of_get rt.doc.ordered hv)
    rw [hmerged, Option.some.injEq, hwithin]
    simp [hi]

/-- A server that the runtime owns is shielded from the plugins exactly if its own write settles and
each document is harmless: once published, the document has no dotted id of the server's name and no
scalar in place of the section. -/
theorem runtime_server_shielded_iff (hdry : o.dryRun = false) (hrt : o.includeRuntime = true)
    (hpub : publish site o disk (findEntry f.adapter rt.path) rt.write "" = .done disk₁ row)
    (hp : p ∈ rt.owned) (qs : List (PluginMcp isNull sections)) :
    Shielded site o disk f rt qs p ↔
      Settles disk (findEntry f.adapter rt.path) rt p ∧ ∀ q ∈ qs, Harmless rt p q := by
  obtain ⟨v, hv⟩ := Option.ne_none_iff_exists'.mp (rt.present p hp)
  obtain ⟨d, hd, hsettles⟩ := serverAt_runtime hdry hpub hv
  have hrows : ∀ plugins, ownedKeys
      (runtimeOwned o (some { f with plugins := plugins }) [rt.write]) rt.path = rt.keys :=
    fun plugins => ownedKeys_runtimeOwned o hrt _ rt
  have hrender : ∀ plugins, renderMcp site o disk { f with plugins := plugins } rt qs =
      (planPlugins o (some { f with plugins := plugins })
        (runtimeOwned o (some { f with plugins := plugins }) [rt.write]) []
          (qs.map (·.projected rt.path))).foldlM (publishPlanned site o)
            (disk₁, State.empty.record row .adapter) := by
    intro plugins
    change publishPlanned site o (disk, .empty)
      (.publish .adapter "" (findEntry f.adapter rt.path) rt.write) >>= _ = _
    simp only [publishPlanned, hpub]
    rfl
  have hpath : o.isGlobal = true ∨ site.contained rt.path = true :=
    (passes_of_publish site o hpub).1.1
  constructor
  · rintro ⟨hclear, hkeep⟩
    -- with no rows for the plugins nothing is refused and nothing skipped
    have hstart : docOf ((disk₁, State.empty.record row .adapter).1 rt.path) = some d := hd
    obtain ⟨r, hrun, hiff⟩ := serverAt_new_plugins (v := v) (hrows [])
      (f := { f with plugins := [] }) rfl hdry hp hpath hclear [] hstart
    have hfinal : serverAt r.1 rt.path p = some v := by
      rw [hkeep [] r ((hrender []).trans hrun), hv]
    obtain ⟨hentry, hleaf⟩ := hiff.mp hfinal
    refine ⟨hsettles.mp hentry, fun q hq hj => ⟨?_, hleaf q hq hj⟩⟩
    exact (clear_iff (hrows f.plugins) hp).mp (hclear q hq) hj
  · rintro ⟨hset, hharm⟩
    refine ⟨fun q hq => ?_, fun plugins r hr => ?_⟩
    · exact (clear_iff (hrows f.plugins) hp).mpr fun hj => (hharm q hq hj).1
    · rw [hrender plugins] at hr
      rw [hv]
      refine serverAt_plugins (hrows plugins) hdry hp hharm [] hr ?_
      rw [serverAt_of_docOf hd]
      exact hsettles.mpr hset

end Shield

section Shadowed

def claudeSite : Site String Unit where
  word := Char.isAlphanum
  lockFree := true
  contained _ := true
  validState _ := true
  manifest := none
  unpackPlugins _ := some []
  unpackSkills _ := some []
  deliver _ content := some content
  renderRuntime _ := some []
  projectPlugin _ _ := some []
  nests _ := some false
  projectSkills _ := some []
  remap := id
  leafAt path _ := path
  skillName := id
  foreign := []
  mirror _ content := (content, [])
  ignore _ disk := disk

def noRows : StateFile String := ⟨.empty, "dev", [], [], []⟩

def soleServer (server : String) : RuntimeMcp String ["mcpServers", "a2aAgents"] :=
  claudeMcp id ".mcp.json" ⟨"dev", [⟨server, "https://mcp"⟩], []⟩ "key"

def isNullText (a : String) : Bool := a = "null"

/-- A plugin with the servers `a.b` and `c`. -/
def dottedPlugin : PluginMcp isNullText ["mcpServers", "a2aAgents"] where
  plugin := "one"
  top :=
    ⟨.node "mcpServers" (.node "a.b" (.leaf "command" "x" .nil) (.node "c" .nil .nil)) .nil,
    by decide⟩
  keys := ["mcpServers.a.b", "mcpServers.c"]
  accepted := by decide
  sourceHash := none

def plainPlugin : PluginMcp isNullText ["mcpServers", "a2aAgents"] where
  plugin := "one"
  top :=
    ⟨.node "mcpServers" (.node "a" (.leaf "command" "x" .nil) (.node "c" .nil .nil)) .nil,
    by decide⟩
  keys := ["mcpServers.a", "mcpServers.c"]
  accepted := by decide
  sourceHash := none

/-- A plugin's command ends up in the entry of the runtime's server `a.b`. -/
theorem dotted_server_is_shadowed :
    Cli.RenderMcp.AdmissibleId "a.b" ∧
      ¬ Shielded claudeSite plainOpts (fun _ => none) noRows (soleServer "a.b") [dottedPlugin]
        ("mcpServers", "a.b") := by
  refine ⟨by decide +kernel, fun h => ?_⟩
  have hsome : (renderMcp claudeSite plainOpts (fun _ => none) noRows (soleServer "a.b")
      [dottedPlugin]).isSome := by decide +kernel
  obtain ⟨r, hr⟩ := Option.isSome_iff_exists.mp hsome
  have hshadowed : ∀ r ∈ renderMcp claudeSite plainOpts (fun _ => none) noRows (soleServer "a.b")
      [dottedPlugin], serverAt r.1 ".mcp.json" ("mcpServers", "a.b") ≠
        entryAt (soleServer "a.b").doc.tree ("mcpServers", "a.b") := by decide +kernel
  exact hshadowed r hr (h.2 [] r hr)

theorem plain_server_is_shielded :
    Shielded claudeSite plainOpts (fun _ => none) noRows (soleServer "a") [plainPlugin]
      ("mcpServers", "a") := by
  obtain ⟨disk₁, row, hpub⟩ : ∃ disk₁ row, publish claudeSite plainOpts (fun _ => none)
      (findEntry noRows.adapter (soleServer "a").path) (soleServer "a").write "" =
        .done disk₁ row :=
    ⟨_, _, rfl⟩
  refine (runtime_server_shielded_iff rfl rfl hpub (by decide) [plainPlugin]).mpr ⟨?_, ?_⟩
  · rintro old v hold -
    cases hold
    exact ⟨fun hi => absurd hi.1 (by decide), fun s s' hs => nomatch hs⟩
  · rintro q hq -
    cases List.mem_singleton.mp hq
    exact ⟨.inl (by decide), fun a => nofun⟩

end Shadowed

end AchProofs.Hydrate
