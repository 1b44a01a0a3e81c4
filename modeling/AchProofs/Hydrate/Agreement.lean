import AchProofs.Cli.CompositeExact
import AchProofs.Cli.DeepFrame
import AchProofs.Hydrate.Drift
import AchProofs.Hydrate.DryRun
import AchProofs.Hydrate.PublishEffect

namespace AchProofs.Hydrate

open Foundation Cli.Merge Cli.DottedKey Cli.Composite
  Cli.CompositeExact

variable {α τ : Type}

/-- What the write owns in its file is what was rendered: its keys with the rendered values, its
block, or the whole file. -/
def Shows (disk : Disk α) (w : FileWrite α) : Prop :=
  match w.merge, w.content with
  | .deep, .doc new => ∃ d, docOf (disk w.path) = some d ∧
      ∀ k ∈ w.keys, getDottedKey d.tree k = getDottedKey new.tree k
  | .composite, .text t => ∃ body, textOf (disk w.path) = some body ∧
      region (compositeID w.keys) body = some (compositeBlock (compositeID w.keys) t)
  | .replace, f => disk w.path = some f
  | _, _ => False

def Agrees (disk : Disk α) (w : FileWrite α) (e : FileEntry α) : Prop :=
  Shows disk w ∧ Intact disk e

/-- Wherever the old value of a key and the rendered one are both objects, every old key is
rendered. Where nothing is rendered, there is no old value. -/
def KeySettles (old new : KeyTree String α) (k : String) : Prop :=
  match getDottedKey new k with
  | some v => ∀ s s', getDottedKey old k = some (.inr s) → v = .inr s' → s.Within s'
  | none => new.Misses (splitPath k) → getDottedKey old k = none

theorem get_merge_iff (old new : Doc α) (k : String) :
    getDottedKey (old.tree.merge new.tree) k = getDottedKey new.tree k ↔
      KeySettles old.tree new.tree k := by
  unfold KeySettles
  cases hv : getDottedKey new.tree k with
  | some v =>
    rw [getDottedKey, KeyTree.get_merge_of_get old.tree hv, Option.some.injEq]
    exact KeyTree.mergeValue_eq_iff (fun _ hw => KeyTree.orderedValue_of_get old.ordered hw)
      (KeyTree.orderedValue_of_get new.ordered hv)
  | none =>
    by_cases hmiss : new.tree.Misses (splitPath k)
    · simp only [getDottedKey, KeyTree.get_merge_of_misses old.tree hmiss, hmiss, true_imp_iff]
    refine ⟨fun _ h => absurd h hmiss, fun _ => ?_⟩
    -- a scalar of the new document stands on the way
    obtain h | ⟨v, h⟩ | ⟨r, a, q, hq, hk, -, ha⟩ :=
      KeyTree.misses_or_hit new.tree (splitPath_ne_nil k)
    · exact absurd h hmiss
    · cases hv.symm.trans h
    · have hmerged := KeyTree.get_merge_of_get old.tree ha
      rw [KeyTree.mergeValue_leaf] at hmerged
      rw [getDottedKey, hk, KeyTree.get_below_scalar hmerged hq]

theorem keySettles_of_eq {old new : KeyTree String α} {k : String}
    (h : getDottedKey old k = getDottedKey new k) : KeySettles old new k := by
  unfold KeySettles
  cases hv : getDottedKey new k with
  | none => exact fun _ => h.trans hv
  | some v =>
    intro s s' hs hs'
    rw [h, hv, hs'] at hs
    cases hs
    exact .refl s

variable [DecidableEq α] (site : Site α τ) (o : Opts) {disk disk' : Disk α}
  {prior : Option (FileEntry α)} {w : FileWrite α} {source : String} {e : FileEntry α}
    {old new : Doc α}

def Idle (disk : Disk α) (prior : Option (FileEntry α)) (w : FileWrite α) : Prop :=
  prior.isSome ∧ ∃ fresh onDisk, freshHash w = some fresh ∧
    scopedHash disk w.merge w.path w.keys = some onDisk ∧
      driftOutcome prior onDisk fresh (w.sourceHash.getD fresh) = .noOp

theorem publish_effect (hdry : o.dryRun = false)
    (h : publish site o disk prior w source = .done disk' e) :
    Readable (disk w.path) w.merge ∧
      (∃ fresh, freshHash w = some fresh ∧ e = entryOf w source fresh) ∧
      (Idle disk prior w → disk' = disk) ∧
      (¬ Idle disk prior w → writeFile site.word disk w = some disk') := by
  obtain ⟨hpass, fresh, hfresh, he⟩ := passes_of_publish site o h
  obtain ⟨onDisk, hscoped, heq⟩ := publish_of_passes site o source hpass hfresh
  have hidle : Idle disk prior w ↔
      prior.isSome ∧ driftOutcome prior onDisk fresh (w.sourceHash.getD fresh) = .noOp := by
    simp [Idle, hfresh, hscoped]
  rw [heq] at h
  refine ⟨readable_of_scopedHash hscoped, ⟨fresh, hfresh, he⟩, fun hi => ?_, fun hn => ?_⟩
  · rw [if_pos (.inr (hidle.mp hi))] at h
    cases h
    rfl
  · rw [if_neg (by simpa [hdry] using mt hidle.mpr hn)] at h
    cases hw : writeFile site.word disk w with
    | none => rw [hw] at h; cases h
    | some d =>
      rw [hw] at h
      cases h
      rfl

theorem publish_deep (hdry : o.dryRun = false) (hm : w.merge = .deep) (hc : w.content = .doc new)
    (h : publish site o disk prior w source = .done disk' e) :
    ∃ old, docOf (disk w.path) = some old ∧ (Idle disk prior w → disk' = disk) ∧
      (¬ Idle disk prior w → docOf (disk' w.path) = some (mergeDocs old new)) := by
  obtain ⟨hread, -, hidle, hwrite⟩ := publish_effect site o hdry h
  rw [hm] at hread
  obtain ⟨old, hold⟩ := Option.isSome_iff_exists.mp hread
  refine ⟨old, hold, hidle, fun hn => ?_⟩
  have hw := hwrite hn
  rw [writeFile_keys hm hc hold] at hw
  cases hw
  simp [docOf]

theorem publish_deep_new (hdry : o.dryRun = false) (hm : w.merge = .deep)
    (hc : w.content = .doc new)
    (hold : docOf (disk w.path) = some old)
    (hpath : o.isGlobal = true ∨ site.contained w.path = true) (source : String) :
    ∃ disk' e, publish site o disk none w source = .done disk' e ∧
      docOf (disk' w.path) = some (mergeDocs old new) := by
  obtain ⟨fresh, hfresh⟩ : ∃ fresh, freshHash w = some fresh :=
    ⟨_, by simp only [freshHash, hm, hc]; rfl⟩
  have hread : Readable (disk w.path) w.merge := by simp [Readable, hm, hold]
  obtain ⟨onDisk, hscoped⟩ := exists_scopedHash hread w.keys
  have hpass : Passes site o disk none w := ⟨hpath, fresh, onDisk, hfresh, hscoped, by simp⟩
  obtain ⟨_, -, heq⟩ := publish_of_passes site o source hpass hfresh
  rw [if_neg (by simp [hdry]), writeFile_keys hm hc hold] at heq
  exact ⟨_, _, heq, by simp [docOf]⟩

/-- If the row is that of the region on disk and of the source, then it has the hash of the
render. -/
def Recorded (disk : Disk α) (prior : Option (FileEntry α)) (w : FileWrite α) : Prop :=
  ∀ q, prior = some q → scopedHash disk w.merge w.path w.keys = some (some q.hash) → Stable q w

theorem recorded_iff {fresh : Digest α} {onDisk : Option (Digest α)}
    (hfresh : freshHash w = some fresh)
    (hscoped : scopedHash disk w.merge w.path w.keys = some onDisk) :
    Recorded disk prior w ↔ (Idle disk prior w → onDisk = some fresh) := by
  have hidle : Idle disk prior w ↔
      prior.isSome ∧ driftOutcome prior onDisk fresh (w.sourceHash.getD fresh) = .noOp := by
    simp [Idle, hfresh, hscoped]
  cases prior with
  | none => simp [Recorded, hidle]
  | some q =>
    simp only [Recorded, Stable, hidle, hfresh, hscoped, Option.some.injEq, forall_eq',
      driftOutcome, compareDrift]
    by_cases hdisk : onDisk = some q.hash
    · by_cases hsource : w.sourceHash.getD fresh = q.sourceHash
      · simp [hdisk, hsource, shouldExit2, eq_comm]
      · simp [hdisk, hsource, shouldExit2]
    · by_cases hsource : w.sourceHash.getD fresh = q.sourceHash <;>
        by_cases hown : onDisk = some fresh <;> simp [hdisk, hsource, hown, shouldExit2]

/-- The state of the file and of the row before a publish in which it leaves what it rendered. The
row is right about the render if it makes the publish skip. In a document, nothing of an older value
stays under a key and some key is rendered. In a file that is written to, the content of the block
does not end it early, no marker of the block is left open before it, and nothing in it is a
reference when it replaces an older one. -/
def Lodges (word : Char → Bool) (disk : Disk α) (prior : Option (FileEntry α)) (w : FileWrite α) :
    Prop :=
  Recorded disk prior w ∧
    match w.merge, w.content with
    | .deep, .doc new => (∃ k ∈ w.keys, getDottedKey new.tree k ≠ none) ∧
        ∀ old, docOf (disk w.path) = some old → ∀ k ∈ w.keys, KeySettles old.tree new.tree k
    | .composite, .text t => ∀ body, textOf (disk w.path) = some body → ¬ Idle disk prior w →
        ¬ endMarker (compositeID w.keys) <:+: t ∧
          if (region (compositeID w.keys) body).isSome then
            Literal word (compositeBlock (compositeID w.keys) t)
          else ¬ beginMarker (compositeID w.keys) <:+: body
    | .replace, _ => True
    | _, _ => False

omit [DecidableEq α] in
theorem intact_deep_iff {fresh : Digest α} {d : Doc α} (hm : w.merge = .deep)
    (hc : w.content = .doc new) (hfresh : freshHash w = some fresh)
    (hd : docOf (disk w.path) = some d)
    (hkeys : ∀ k ∈ w.keys, getDottedKey d.tree k = getDottedKey new.tree k) :
    Intact disk (entryOf w source fresh) ↔ ∃ k ∈ w.keys, getDottedKey new.tree k ≠ none := by
  have hfound := extractByKeys_found new.tree w.keys
  simp only [freshHash, hm, hc, Option.some.injEq] at hfresh
  change scopedHash disk w.merge w.path w.keys = some (some fresh) ↔ _
  rw [hm, scopedHash_deep hd, extractByKeys_congr hkeys, ← hfound, ← hfresh]
  cases hx : (extractByKeys new.tree w.keys).2 with
  | false => simp
  | true =>
    have hne : w.keys ≠ [] := by
      obtain ⟨k, hk, -⟩ := hfound.mp hx
      exact List.ne_nil_of_mem hk
    simp [hne]

variable {site o}

omit [DecidableEq α] in
/-- The keys on disk have the hash of the render exactly if their values are the rendered ones. -/
theorem scopedHash_deep_iff {fresh : Digest α} {onDisk : Option (Digest α)} (hm : w.merge = .deep)
    (hc : w.content = .doc new) (hfresh : freshHash w = some fresh)
    (hold : docOf (disk w.path) = some old)
    (hscoped : scopedHash disk w.merge w.path w.keys = some onDisk)
    (hsome : ∃ k ∈ w.keys, getDottedKey new.tree k ≠ none) :
    onDisk = some fresh ↔ ∀ k ∈ w.keys, getDottedKey old.tree k = getDottedKey new.tree k := by
  have hne : w.keys ≠ [] := by
    obtain ⟨k, hk, -⟩ := hsome
    exact List.ne_nil_of_mem hk
  simp only [freshHash, hm, hc, if_neg hne, Option.some.injEq] at hfresh
  rw [hm, scopedHash_deep hold, Option.some.injEq] at hscoped
  rw [← hscoped, ← hfresh]
  constructor
  · intro h k hk
    split_ifs at h
    have htree : (extractByKeys old.tree w.keys).1 = (extractByKeys new.tree w.keys).1 :=
      Digest.subtree.inj (Option.some.inj h)
    rw [← get_extractByKeys old.ordered hk, htree, get_extractByKeys new.ordered hk]
  · intro h
    rw [extractByKeys_congr h, if_pos ((extractByKeys_found new.tree w.keys).mpr hsome)]

theorem deep_agrees_iff (hdry : o.dryRun = false) (hm : w.merge = .deep) (hc : w.content = .doc new)
    (h : publish site o disk prior w source = .done disk' e) :
    Agrees disk' w e ↔ Lodges site.word disk prior w := by
  obtain ⟨hread, ⟨fresh, hfresh, rfl⟩, -, -⟩ := publish_effect site o hdry h
  obtain ⟨old, hold, hidle, hwrite⟩ := publish_deep site o hdry hm hc h
  obtain ⟨onDisk, hscoped⟩ := exists_scopedHash hread w.keys
  have hshows : Shows disk' w ↔
      (Idle disk prior w → ∀ k ∈ w.keys, getDottedKey old.tree k = getDottedKey new.tree k) ∧
        (¬ Idle disk prior w → ∀ k ∈ w.keys, KeySettles old.tree new.tree k) := by
    simp only [Shows, hm, hc]
    by_cases hi : Idle disk prior w
    · simp [hidle hi, hold, hi]
    · simp only [hwrite hi, hi, Option.some.injEq, exists_eq_left', false_imp_iff, true_and,
        not_false_eq_true, true_imp_iff]
      exact forall₂_congr fun k _ => get_merge_iff old new k
  have hlodges : Lodges site.word disk prior w ↔
      (∃ k ∈ w.keys, getDottedKey new.tree k ≠ none) ∧ Shows disk' w := by
    rw [hshows, Lodges, hm, hc, recorded_iff hfresh hscoped]
    simp only [hold, Option.some.injEq, forall_eq']
    refine and_left_comm.trans (and_congr_right fun hsome => ?_)
    rw [scopedHash_deep_iff hm hc hfresh hold hscoped hsome]
    refine and_congr_right fun hsame => ⟨fun hset _ => hset, fun hset k hk => ?_⟩
    by_cases hi : Idle disk prior w
    · exact keySettles_of_eq (hsame hi k hk)
    · exact hset hi k hk
  rw [hlodges, and_comm]
  refine and_congr_right fun hs => ?_
  obtain ⟨d, hd, hkeys⟩ : ∃ d, docOf (disk' w.path) = some d ∧
      ∀ k ∈ w.keys, getDottedKey d.tree k = getDottedKey new.tree k := by
    simpa only [Shows, hm, hc] using hs
  exact intact_deep_iff hm hc hfresh hd hkeys

theorem composite_agrees_iff {t : Text} (hdry : o.dryRun = false) (hword : NameChars site.word)
    (hm : w.merge = .composite) (hc : w.content = .text t) (hid : PlainId (compositeID w.keys))
    (h : publish site o disk prior w source = .done disk' e) :
    Agrees disk' w e ↔ Lodges site.word disk prior w := by
  obtain ⟨hread, ⟨fresh, hfresh, rfl⟩, hidle, hwrite⟩ := publish_effect site o hdry h
  rw [hm] at hread
  obtain ⟨body, hbody⟩ := Option.isSome_iff_exists.mp hread
  have hscoped := scopedHash_composite hbody w.keys
  rw [← hm] at hscoped
  have hblock : freshHash w = some (.text (compositeBlock (compositeID w.keys) t)) := by
    simp only [freshHash, hm, hc]
  have hshows : Shows disk' w ↔ Lodges site.word disk prior w := by
    rw [Lodges, recorded_iff hblock hscoped]
    simp only [Shows, hm, hc, hbody, Option.some.injEq, forall_eq']
    by_cases hi : Idle disk prior w
    · simp [hidle hi, hbody, hi]
    · have hw := hwrite hi
      rw [writeFile_block hm hc hbody] at hw
      cases hw
      simpa [textOf, hi] using region_writeComposite_iff hword hid
  rw [← hshows]
  refine and_iff_left_of_imp fun hs => ?_
  obtain ⟨body', hbody', hregion⟩ : ∃ body', textOf (disk' w.path) = some body' ∧
      region (compositeID w.keys) body' = some (compositeBlock (compositeID w.keys) t) := by
    simpa only [Shows, hm, hc] using hs
  simp only [freshHash, hm, hc, Option.some.injEq] at hfresh
  change scopedHash disk' w.merge w.path w.keys = some (some fresh)
  rw [hm, scopedHash_composite hbody', hregion, ← hfresh]
  rfl

theorem replace_agrees_iff (hdry : o.dryRun = false) (hm : w.merge = .replace)
    (h : publish site o disk prior w source = .done disk' e) :
    Agrees disk' w e ↔ Lodges site.word disk prior w := by
  obtain ⟨-, ⟨fresh, hfresh, rfl⟩, hidle, hwrite⟩ := publish_effect site o hdry h
  have hscoped := scopedHash_replace disk w.path w.keys
  rw [← hm] at hscoped
  have hfile : freshHash w = some (.file w.content) := by
    simp only [freshHash, hm]
  have hshows : Shows disk' w ↔ Lodges site.word disk prior w := by
    rw [Lodges, recorded_iff hfile hscoped]
    simp only [Shows, hm]
    by_cases hi : Idle disk prior w
    · simp [hidle hi, hi]
    · have hw := hwrite hi
      rw [writeFile_replace hm] at hw
      cases hw
      simp [hi]
  rw [← hshows]
  refine and_iff_left_of_imp fun hs => ?_
  simp only [Shows, hm] at hs
  simp only [freshHash, hm, Option.some.injEq] at hfresh
  change scopedHash disk' w.merge w.path w.keys = some (some fresh)
  rw [hm, scopedHash_replace, hs, ← hfresh]
  rfl

/-- A publish that is done leaves in the file what was rendered, under the hash it records, exactly
if the write lodges. -/
theorem publish_agrees_iff (hdry : o.dryRun = false) (hword : NameChars site.word)
    (hid : w.merge = .composite → PlainId (compositeID w.keys))
    (h : publish site o disk prior w source = .done disk' e) :
    Agrees disk' w e ↔ Lodges site.word disk prior w := by
  obtain ⟨-, ⟨fresh, hfresh, -⟩, -, -⟩ := publish_effect site o hdry h
  cases hm : w.merge with
  | replace => exact replace_agrees_iff hdry hm h
  | deep =>
    cases hc : w.content with
    | doc new => exact deep_agrees_iff hdry hm hc h
    | text t => simp [freshHash, hm, hc] at hfresh
  | composite =>
    cases hc : w.content with
    | doc new => simp [freshHash, hm, hc] at hfresh
    | text t => exact composite_agrees_iff hdry hword hm hc (hid hm) h

/-- The server `x` with its address and maybe a credential header. -/
def headedServer (header : Option ℕ) : Doc ℕ where
  tree := .node "mcpServers" (.node "x"
    (header.elim (.leaf "url" 1 .nil) fun v => .leaf "headers" v (.leaf "url" 1 .nil)) .nil) .nil
  ordered := by
    cases header with
    | none => simp [KeyTree.Ordered, KeyTree.keys]
    | some v =>
      have hlt : ∀ k ∈ ["url"], "headers" < k := by decide
      exact ⟨nofun, ⟨nofun, ⟨hlt, nofun, trivial⟩, trivial⟩, trivial⟩

def headedWrite (header : Option ℕ) : FileWrite ℕ :=
  ⟨".mcp.json", .deep, .doc (headedServer header), ["mcpServers.x"], none⟩

def headedDisk (header : Option ℕ) : Disk ℕ := fun t =>
  if t = ".mcp.json" then some (.doc (headedServer header)) else none

def headedRow (header : Option ℕ) : FileEntry ℕ :=
  entryOf (headedWrite header) "" (.subtree (headedServer header).tree)

/-- The server comes without its credential header, and the old header stays in the file. -/
theorem dropped_header_stays :
    ∃ disk' e, publish (pluginSite []) plainOpts (headedDisk (some 7)) (some (headedRow (some 7)))
        (headedWrite none) "" = .done disk' e ∧
      look disk' (.key ".mcp.json" "mcpServers.x.headers") = some (.value (.inl 7)) ∧
      ¬ Agrees disk' (headedWrite none) e :=
  ⟨_, _, rfl, by decide, fun h => absurd h.2 (by decide)⟩

theorem new_header_agrees :
    ∃ disk' e, publish (pluginSite []) plainOpts (headedDisk none) (some (headedRow none))
        (headedWrite (some 7)) "" = .done disk' e ∧ Agrees disk' (headedWrite (some 7)) e := by
  obtain ⟨disk', e, h⟩ : ∃ disk' e, publish (pluginSite []) plainOpts (headedDisk none)
      (some (headedRow none)) (headedWrite (some 7)) "" = .done disk' e := ⟨_, _, rfl⟩
  have hword : NameChars (pluginSite []).word := ⟨by decide, by decide⟩
  refine ⟨disk', e, h, (publish_agrees_iff rfl hword (fun hm => by cases hm) h).mpr ?_⟩
  refine ⟨?_, ⟨"mcpServers.x", by simp [headedWrite], by decide⟩, fun old hold k hk => ?_⟩
  · intro q hq _
    cases hq
    exact stable_of_hash rfl rfl
  · cases hold
    cases List.mem_singleton.mp hk
    exact (get_merge_iff _ _ _).mp (by decide)

end AchProofs.Hydrate
