import AchProofs.Cli.Composite

namespace AchProofs.Cli.CompositeLayout

open Foundation.Search Cli.Composite

/-- A stretch of a composite file: text of the user, or the marked block of an id. -/
inductive Chunk where
  | user (text : Text)
  | block (id : String) (content : Text)

def Chunk.text : Chunk → Text
  | .user text => text
  | .block id content => compositeBlock id content

def Chunk.userText : Chunk → Text
  | .user text => text
  | .block _ _ => []

def Chunk.blockId : Chunk → Option String
  | .user _ => none
  | .block id _ => some id

def render (cs : List Chunk) : Text := cs.flatMap Chunk.text

def userText (cs : List Chunk) : Text := cs.flatMap Chunk.userText

def ContentSafe (ok : String → Prop) (id : String) (content : Text) : Prop :=
  ¬ endMarker id <:+: content ∧ ∀ id', ok id' → id' ≠ id → ¬ beginMarker id' <:+: content

/-- Each id has at most one block, and neither the user's text nor a content forges a marker. -/
structure Laid (ok : String → Prop) (cs : List Chunk) : Prop where
  nodup : (cs.filterMap Chunk.blockId).Nodup
  safe : ∀ id content, .block id content ∈ cs → ok id ∧ ContentSafe ok id content
  user : ∀ id, ok id → ¬ beginMarker id <:+: userText cs

variable {ok : String → Prop} {cs cs₁ cs₂ : List Chunk} {id : String} {content c : Text}

theorem userText_append (cs₁ cs₂ : List Chunk) :
    userText (cs₁ ++ cs₂) = userText cs₁ ++ userText cs₂ := List.flatMap_append

theorem mem_blockIds : id ∈ cs.filterMap Chunk.blockId ↔ ∃ content, .block id content ∈ cs := by
  constructor
  · intro h
    obtain ⟨ch, hch, hid⟩ := List.mem_filterMap.mp h
    cases ch with
    | user text => cases hid
    | block i content =>
      cases hid
      exact ⟨content, hch⟩
  · rintro ⟨content, hch⟩
    exact List.mem_filterMap.mpr ⟨_, hch, rfl⟩

theorem render_of_no_block (h : ∀ id content, .block id content ∉ cs) :
    render cs = userText cs := by
  refine List.flatMap_congr (fun ch hch => ?_)
  cases ch with
  | user text => rfl
  | block id content => exact absurd hch (h id content)

theorem infix_block_append {id id' : String} (h : ValidId id) (h' : ValidId id') {rest : Text}
    (hi : beginMarker id <:+: compositeBlock id' content ++ rest) :
    beginMarker id <:+: compositeBlock id' content ∨ beginMarker id <:+: rest := by
  have hsplit : compositeBlock id' content ++ rest =
      (beginMarker id' ++ (['\n'] ++ content.rdropWhile (fun c => c = '\n') ++ ['\n'])) ++
        '<' :: ((endTail id' ++ ['\n']) ++ rest) := by
    simp [compositeBlock, endMarker]
  rw [hsplit] at hi
  obtain hi | hi := infix_append_cons (lt_not_mem_beginTail h) hi
  · left
    refine hi.trans ⟨[], endMarker id' ++ ['\n'], ?_⟩
    simp [compositeBlock]
  · right
    obtain hi | hi := List.infix_cons_iff.mp hi
    · have hne := beginMarker_not_endMarker id id' (['\n'] ++ rest)
      exact absurd hi (by simpa [beginMarker, endMarker] using hne)
    · exact infix_append_of_not_mem
        (by simp [lt_not_mem_endTail h'] : '<' ∉ endTail id' ++ ['\n']) hi

/-- Without a block of its own, the begin marker of an id is nowhere in the file. The induction
carries the user's text read since the last block. -/
theorem beginMarker_not_render (hok : ∀ id, ok id → ValidId id) (hid : ok id) {pre : Text}
    (hsafe : ∀ i content, .block i content ∈ cs → i ≠ id ∧ ok i ∧ ContentSafe ok i content)
    (huser : ¬ beginMarker id <:+: pre ++ userText cs) :
    ¬ beginMarker id <:+: pre ++ render cs := by
  induction cs generalizing pre with
  | nil => simpa [render, userText] using huser
  | cons ch cs ih =>
    have hrest : ∀ i content, .block i content ∈ cs → i ≠ id ∧ ok i ∧ ContentSafe ok i content :=
      fun i content hm => hsafe i content (List.mem_cons_of_mem _ hm)
    cases ch with
    | user text =>
      have h : ¬ beginMarker id <:+: (pre ++ text) ++ render cs :=
        ih hrest (by simpa [userText, Chunk.userText] using huser)
      simpa [render, Chunk.text] using h
    | block i content =>
      obtain ⟨hne, hi, hc⟩ := hsafe i content List.mem_cons_self
      have huser' : ¬ beginMarker id <:+: pre ++ userText cs := by
        simpa [userText, Chunk.userText] using huser
      intro hmark
      have hmark' : beginMarker id <:+: pre ++ '<' :: (beginTail i ++ (['\n'] ++
          content.rdropWhile (fun c => c = '\n') ++ ['\n']) ++ endMarker i ++ ['\n'] ++
            render cs) := by
        simpa [render, Chunk.text, compositeBlock, beginMarker] using hmark
      obtain hp | hb := infix_append_cons (lt_not_mem_beginTail (hok id hid)) hmark'
      · exact huser' (hp.trans (List.prefix_append _ _).isInfix)
      · have hb' : beginMarker id <:+: compositeBlock i content ++ render cs := by
          simpa [compositeBlock, beginMarker] using hb
        obtain hb | hr := infix_block_append (hok id hid) (hok i hi) hb'
        · exact beginMarker_not_block (hok id hid) (hok i hi) (Ne.symm hne)
            (hc.2 id hid (Ne.symm hne)) hb
        · have hnil : ¬ beginMarker id <:+: [] ++ userText cs := fun hu =>
            huser' (hu.trans (List.suffix_append _ _).isInfix)
          exact ih hrest hnil (by simpa using hr)

theorem exists_split (hl : Laid ok cs) (h : .block id c ∈ cs) :
    ∃ cs₁ cs₂, cs = cs₁ ++ .block id c :: cs₂ ∧ (∀ c', .block id c' ∉ cs₁) ∧
      ∀ c', .block id c' ∉ cs₂ := by
  obtain ⟨cs₁, cs₂, rfl⟩ := List.append_of_mem h
  have hn := hl.nodup
  rw [List.filterMap_append, List.nodup_append] at hn
  obtain ⟨-, hn₂, hdis⟩ := hn
  have hhead : id ∈ (Chunk.block id c :: cs₂).filterMap Chunk.blockId :=
    mem_blockIds.mpr ⟨c, List.mem_cons_self⟩
  refine ⟨cs₁, cs₂, rfl, fun c' hc' => ?_, fun c' hc' => ?_⟩
  · exact hdis id (mem_blockIds.mpr ⟨c', hc'⟩) id hhead rfl
  · have hcons : (Chunk.block id c :: cs₂).filterMap Chunk.blockId =
        id :: cs₂.filterMap Chunk.blockId := rfl
    rw [hcons, List.nodup_cons] at hn₂
    exact hn₂.1 (mem_blockIds.mpr ⟨c', hc'⟩)

section Laid

variable (hok : ∀ id, ok id → ValidId id)

include hok

theorem beginMarker_not_part (hl : Laid ok cs) (hid : ok id) {part : List Chunk}
    (hsub : part.Sublist cs) (hinf : userText part <:+: userText cs)
    (hno : ∀ c, .block id c ∉ part) : ¬ beginMarker id <:+: render part := by
  have hsafe : ∀ i content, .block i content ∈ part → i ≠ id ∧ ok i ∧ ContentSafe ok i content := by
    intro i content hm
    refine ⟨?_, hl.safe i content (hsub.subset hm)⟩
    rintro rfl
    exact hno content hm
  have h : ¬ beginMarker id <:+: [] ++ render part :=
    beginMarker_not_render hok hid hsafe (fun hu => hl.user id hid (hu.trans hinf))
  simpa using h

theorem beginMarker_not_left (hl : Laid ok (cs₁ ++ cs₂)) (hid : ok id)
    (hno : ∀ c, .block id c ∉ cs₁) : ¬ beginMarker id <:+: render cs₁ :=
  beginMarker_not_part hok hl hid (List.sublist_append_left _ _)
    (userText_append cs₁ cs₂ ▸ (List.prefix_append _ _).isInfix) hno

theorem beginMarker_not_right (hl : Laid ok (cs₁ ++ cs₂)) (hid : ok id)
    (hno : ∀ c, .block id c ∉ cs₂) : ¬ beginMarker id <:+: render cs₂ :=
  beginMarker_not_part hok hl hid (List.sublist_append_right _ _)
    (userText_append cs₁ cs₂ ▸ (List.suffix_append _ _).isInfix) hno

theorem marker_at (hl : Laid ok (cs₁ ++ .block id c :: cs₂)) (hno : ∀ c', .block id c' ∉ cs₁) :
    pluginMarkerRE id (render (cs₁ ++ .block id c :: cs₂)) =
      some (render cs₁, compositeBlock id c, render cs₂) := by
  obtain ⟨hid, hc⟩ := hl.safe id c (by simp)
  have hmark := pluginMarkerRE_block (hok id hid) (beginMarker_not_left hok hl hid hno) hc.1
    (render cs₂)
  simpa [render, Chunk.text] using hmark

theorem replace_at (word : Char → Bool) (hl : Laid ok (cs₁ ++ .block id c :: cs₂))
    (hno₁ : ∀ c', .block id c' ∉ cs₁) (hno₂ : ∀ c', .block id c' ∉ cs₂) {template : Text}
    (ht : Literal word template) :
    replaceRegions word id template (render (cs₁ ++ .block id c :: cs₂)) =
      render cs₁ ++ template ++ render cs₂ := by
  obtain ⟨hid, hc⟩ := hl.safe id c (by simp)
  have hl' : Laid ok ((cs₁ ++ [.block id c]) ++ cs₂) := by simpa using hl
  have hrep := replaceRegions_block word (hok id hid) (beginMarker_not_left hok hl hid hno₁) hc.1
    (beginMarker_not_right hok hl' hid hno₂) ht
  simpa [render, Chunk.text] using hrep

theorem marker_absent (hl : Laid ok cs) (hid : ok id) (hno : ∀ c, .block id c ∉ cs) :
    ¬ beginMarker id <:+: render cs := by
  have hl' : Laid ok (cs ++ []) := by simpa using hl
  exact beginMarker_not_left hok hl' hid hno

theorem region_of_mem (hl : Laid ok cs) (h : .block id c ∈ cs) :
    region id (render cs) = some (compositeBlock id c) := by
  obtain ⟨cs₁, cs₂, rfl, hno, -⟩ := exists_split hl h
  rw [region, marker_at hok hl hno]
  rfl

theorem region_of_not_mem (hl : Laid ok cs) (hid : ok id) (hno : ∀ c, .block id c ∉ cs) :
    region id (render cs) = none := by
  rw [region, pluginMarkerRE_none (marker_absent hok hl hid hno)]
  rfl

theorem region_congr {cs' : List Chunk} (hl : Laid ok cs) (hl' : Laid ok cs') (hid : ok id)
    (h : ∀ c, .block id c ∈ cs' ↔ .block id c ∈ cs) :
    region id (render cs') = region id (render cs) := by
  by_cases hm : ∃ c, .block id c ∈ cs
  · obtain ⟨c, hc⟩ := hm
    rw [region_of_mem hok hl hc, region_of_mem hok hl' ((h c).mpr hc)]
  · have hno : ∀ c, .block id c ∉ cs := fun c hc => hm ⟨c, hc⟩
    have hno' : ∀ c, .block id c ∉ cs' := fun c hc => hm ⟨c, (h c).mp hc⟩
    rw [region_of_not_mem hok hl hid hno, region_of_not_mem hok hl' hid hno']

end Laid

/-- What a write of an id's block does to the layout: in place of the old block, or at the end. -/
def setBlock (id : String) (content : Text) (cs : List Chunk) : List Chunk :=
  if id ∈ cs.filterMap Chunk.blockId then
    cs.map (fun ch => if ch.blockId = some id then .block id content else ch)
  else cs ++ [.block id content]

def dropBlock (id : String) (cs : List Chunk) : List Chunk :=
  cs.filter (fun ch => ch.blockId ≠ some id)

theorem blockId_ne (h : ∀ c, .block id c ∉ cs) {ch : Chunk} (hch : ch ∈ cs) :
    ch.blockId ≠ some id := by
  intro heq
  cases ch with
  | user text => cases heq
  | block i c =>
    cases heq
    exact h c hch

theorem setBlock_present (h₁ : ∀ c', .block id c' ∉ cs₁) (h₂ : ∀ c', .block id c' ∉ cs₂) :
    setBlock id content (cs₁ ++ .block id c :: cs₂) = cs₁ ++ .block id content :: cs₂ := by
  have hmem : id ∈ (cs₁ ++ Chunk.block id c :: cs₂).filterMap Chunk.blockId :=
    mem_blockIds.mpr ⟨c, by simp⟩
  rw [setBlock, if_pos hmem, List.map_append, List.map_cons,
    if_pos (show (Chunk.block id c).blockId = some id from rfl),
    List.map_congr_left (fun ch hch => if_neg (blockId_ne h₁ hch)),
    List.map_congr_left (fun ch hch => if_neg (blockId_ne h₂ hch)), List.map_id', List.map_id']

theorem setBlock_absent (h : ∀ c', .block id c' ∉ cs) :
    setBlock id content cs = cs ++ [.block id content] :=
  if_neg (fun hm => (mem_blockIds.mp hm).elim h)

theorem dropBlock_present (h₁ : ∀ c', .block id c' ∉ cs₁) (h₂ : ∀ c', .block id c' ∉ cs₂) :
    dropBlock id (cs₁ ++ .block id c :: cs₂) = cs₁ ++ cs₂ := by
  have hkeep : ∀ cs : List Chunk, (∀ c', .block id c' ∉ cs) → dropBlock id cs = cs :=
    fun cs h => List.filter_eq_self.mpr (fun ch hch => by simpa using blockId_ne h hch)
  have hhead : dropBlock id (.block id c :: cs₂) = dropBlock id cs₂ :=
    List.filter_cons_of_neg (by simp [Chunk.blockId])
  have happ : dropBlock id (cs₁ ++ .block id c :: cs₂) =
      dropBlock id cs₁ ++ dropBlock id (.block id c :: cs₂) := List.filter_append _ _
  rw [happ, hhead, hkeep cs₁ h₁, hkeep cs₂ h₂]

theorem dropBlock_absent (h : ∀ c', .block id c' ∉ cs) : dropBlock id cs = cs :=
  List.filter_eq_self.mpr (fun ch hch => by simpa using blockId_ne h hch)

theorem mem_setBlock (cs : List Chunk) : .block id c ∈ setBlock id content cs ↔ c = content := by
  by_cases hm : id ∈ cs.filterMap Chunk.blockId
  · rw [setBlock, if_pos hm, List.mem_map]
    constructor
    · rintro ⟨ch, hch, heq⟩
      by_cases hid : ch.blockId = some id
      · rw [if_pos hid] at heq
        cases heq
        rfl
      · rw [if_neg hid] at heq
        subst heq
        exact absurd rfl hid
    · rintro rfl
      obtain ⟨c', hc'⟩ := mem_blockIds.mp hm
      exact ⟨_, hc', if_pos rfl⟩
  · have hno : ∀ c', .block id c' ∉ cs := fun c' hc' => hm (mem_blockIds.mpr ⟨c', hc'⟩)
    simp [setBlock_absent hno, hno]

theorem mem_setBlock_of_ne {id' : String} (hne : id' ≠ id) (cs : List Chunk) :
    .block id' c ∈ setBlock id content cs ↔ .block id' c ∈ cs := by
  by_cases hm : id ∈ cs.filterMap Chunk.blockId
  · rw [setBlock, if_pos hm, List.mem_map]
    constructor
    · rintro ⟨ch, hch, heq⟩
      by_cases hid : ch.blockId = some id
      · rw [if_pos hid] at heq
        cases heq
        exact absurd rfl hne
      · rw [if_neg hid] at heq
        exact heq ▸ hch
    · intro hch
      refine ⟨_, hch, if_neg ?_⟩
      simpa [Chunk.blockId] using hne
  · rw [setBlock, if_neg hm]
    simp [hne]

theorem mem_dropBlock {id' : String} (cs : List Chunk) :
    .block id' c ∈ dropBlock id cs ↔ .block id' c ∈ cs ∧ id' ≠ id := by
  simp [dropBlock, Chunk.blockId]

theorem userText_setBlock (id : String) (content : Text) (cs : List Chunk) :
    userText (setBlock id content cs) = userText cs := by
  have hsame : ∀ ch : Chunk,
      (if ch.blockId = some id then Chunk.block id content else ch).userText = ch.userText := by
    intro ch
    split
    · cases ch with
      | user text => contradiction
      | block i c => rfl
    · rfl
  unfold setBlock
  split
  · simp only [userText, List.flatMap_map, hsame]
  · simp [userText, Chunk.userText]

theorem userText_dropBlock (id : String) (cs : List Chunk) :
    userText (dropBlock id cs) = userText cs := by
  induction cs with
  | nil => rfl
  | cons ch cs ih =>
    cases ch with
    | user text =>
      change userText (.user text :: dropBlock id cs) = _
      simp only [userText, List.flatMap_cons] at ih ⊢
      rw [ih]
    | block i c =>
      by_cases hi : i = id
      · subst hi
        have hdrop : dropBlock i (.block i c :: cs) = dropBlock i cs :=
          List.filter_cons_of_neg (by simp [Chunk.blockId])
        rw [hdrop, ih]
        rfl
      · have hkeep : dropBlock id (.block i c :: cs) = .block i c :: dropBlock id cs :=
          List.filter_cons_of_pos (by simpa [Chunk.blockId] using hi)
        rw [hkeep]
        exact ih

section Refines

variable (hok : ∀ id, ok id → ValidId id) (word : Char → Bool)

theorem Laid.setBlock (hl : Laid ok cs) (hid : ok id) (hc : ContentSafe ok id content) :
    Laid ok (setBlock id content cs) := by
  have hsafe : ∀ i c, .block i c ∈ CompositeLayout.setBlock id content cs →
      ok i ∧ ContentSafe ok i c := by
    intro i c hm
    by_cases hi : i = id
    · subst hi
      rw [(mem_setBlock cs).mp hm]
      exact ⟨hid, hc⟩
    · exact hl.safe i c ((mem_setBlock_of_ne hi cs).mp hm)
  have huser :
      ∀ i, ok i → ¬ beginMarker i <:+: userText (CompositeLayout.setBlock id content cs) := by
    rw [userText_setBlock]
    exact hl.user
  by_cases hm : ∃ c, .block id c ∈ cs
  · obtain ⟨c, hcm⟩ := hm
    obtain ⟨cs₁, cs₂, rfl, h₁, h₂⟩ := exists_split hl hcm
    rw [setBlock_present h₁ h₂] at hsafe huser ⊢
    refine ⟨?_, hsafe, huser⟩
    simpa [Chunk.blockId] using hl.nodup
  · have hno : ∀ c, .block id c ∉ cs := fun c hc => hm ⟨c, hc⟩
    rw [setBlock_absent hno] at hsafe huser ⊢
    refine ⟨?_, hsafe, huser⟩
    rw [List.filterMap_append, List.nodup_append]
    refine ⟨hl.nodup, by simp [Chunk.blockId], ?_⟩
    rintro a ha b hb rfl
    have hab : a = id := by simpa [Chunk.blockId] using hb
    subst hab
    exact (mem_blockIds.mp ha).elim hno

theorem Laid.dropBlock (hl : Laid ok cs) (id : String) : Laid ok (dropBlock id cs) := by
  have hsub : (CompositeLayout.dropBlock id cs).Sublist cs := List.filter_sublist
  refine ⟨hl.nodup.sublist (hsub.filterMap _), fun i c hm => hl.safe i c (hsub.subset hm), ?_⟩
  rw [userText_dropBlock]
  exact hl.user

include hok

theorem writeComposite_render (hl : Laid ok cs) (hid : ok id)
    (hlit : (region id (render cs)).isSome → Literal word (compositeBlock id content)) :
    writeComposite word id (compositeBlock id content) (render cs) =
      render (setBlock id content cs) := by
  by_cases hm : ∃ c, .block id c ∈ cs
  · obtain ⟨c, hcm⟩ := hm
    obtain ⟨cs₁, cs₂, rfl, h₁, h₂⟩ := exists_split hl hcm
    have hlit' := hlit (by rw [region_of_mem hok hl hcm]; rfl)
    simp only [writeComposite, marker_at hok hl h₁, replace_at hok word hl h₁ h₂ hlit',
      setBlock_present h₁ h₂]
    simp [render, Chunk.text]
  · have hno : ∀ c, .block id c ∉ cs := fun c hc => hm ⟨c, hc⟩
    simp only [writeComposite, pluginMarkerRE_none (marker_absent hok hl hid hno),
      setBlock_absent hno]
    simp [render, Chunk.text]

theorem removeComposite_render (hl : Laid ok cs) (hid : ok id) :
    removeComposite word id (render cs) = render (dropBlock id cs) := by
  by_cases hm : ∃ c, .block id c ∈ cs
  · obtain ⟨c, hcm⟩ := hm
    obtain ⟨cs₁, cs₂, rfl, h₁, h₂⟩ := exists_split hl hcm
    rw [removeComposite, replace_at hok word hl h₁ h₂ (show Literal word [] from trivial),
      dropBlock_present h₁ h₂]
    simp [render]
  · have hno : ∀ c, .block id c ∉ cs := fun c hc => hm ⟨c, hc⟩
    rw [dropBlock_absent hno]
    exact replaceRegions_none word (marker_absent hok hl hid hno) []

end Refines

end AchProofs.Cli.CompositeLayout
