import AchProofs.Cli.CompositeLayout

namespace AchProofs.Cli.CompositeRun

open Foundation.Search Cli.Composite Cli.CompositeLayout

inductive Op where
  | write (id : String) (content : Text)
  | remove (id : String)

def Op.id : Op → String
  | .write id _ => id
  | .remove id => id

def step (word : Char → Bool) (file : Text) : Op → Text
  | .write id content => writeComposite word id (compositeBlock id content) file
  | .remove id => removeComposite word id file

def run (word : Char → Bool) (file : Text) (ops : List Op) : Text := ops.foldl (step word) file

def remember (id : String) (acc : Option Text) : Op → Option Text
  | .write i content => if i = id then some content else acc
  | .remove i => if i = id then none else acc

def lastWritten (ops : List Op) (id : String) : Option Text := ops.foldl (remember id) none

/-- The abstract file behind a host body: the host, and the blocks in the order they came in. -/
def apply (cs : List Chunk) : Op → List Chunk
  | .write id content => setBlock id content cs
  | .remove id => dropBlock id cs

instance (ids : List String) (id : String) (content : Text) :
    Decidable (ContentSafe (· ∈ ids) id content) :=
  inferInstanceAs (Decidable (_ ∧ ∀ id' ∈ ids, _))

/-- A written content forges neither its own end marker nor the begin marker of another id, and
holds no template reference when it takes the place of a block that is already there. -/
def SafeStep (word : Char → Bool) (ids : List String) (file : Text) : Op → Prop
  | .write id content => id ∈ ids ∧ ContentSafe (· ∈ ids) id content ∧
      ((pluginMarkerRE id file).isSome → Literal word (compositeBlock id content))
  | .remove id => id ∈ ids

def SafeRun (word : Char → Bool) (ids : List String) : Text → List Op → Prop
  | _, [] => True
  | file, op :: ops => SafeStep word ids file op ∧ SafeRun word ids (step word file op) ops

/-- A step on one id changes nothing before or after its block and leaves the other blocks. -/
def Isolated (ids : List String) (host file file' : Text) (id : String) : Prop :=
  ∃ pre post, host <+: pre ∧ file = pre ++ (region id file).getD [] ++ post ∧
    file' = pre ++ (region id file').getD [] ++ post ∧
    ∀ id' ∈ ids, id' ≠ id → region id' file' = region id' file

/-- The layouts of a run: the host in front, and blocks of the ids after it. -/
structure Hosted (ids : List String) (host : Text) (cs : List Chunk) : Prop where
  laid : Laid (· ∈ ids) cs
  head : cs.head? = some (.user host)
  user : userText cs = host

section Run

variable {ids : List String} {host : Text} {cs cs₁ cs₂ : List Chunk}

theorem hosted_start (hhost : ∀ id ∈ ids, ¬ beginMarker id <:+: host) :
    Hosted ids host [.user host] := by
  refine ⟨⟨List.nodup_nil, by simp, ?_⟩, rfl, by simp [userText, Chunk.userText]⟩
  simpa [userText, Chunk.userText] using hhost

theorem head_setBlock (h : cs.head? = some (.user host)) (id : String) (content : Text) :
    (setBlock id content cs).head? = some (.user host) := by
  cases cs with
  | nil => cases h
  | cons ch cs =>
    cases h
    unfold setBlock
    split <;> rfl

theorem head_dropBlock (h : cs.head? = some (.user host)) (id : String) :
    (dropBlock id cs).head? = some (.user host) := by
  cases cs with
  | nil => cases h
  | cons ch cs =>
    cases h
    rfl

theorem host_prefix_render (h : (cs₁ ++ cs₂).head? = some (.user host)) (hne : cs₁ ≠ []) :
    host <+: render cs₁ := by
  cases cs₁ with
  | nil => exact absurd rfl hne
  | cons ch cs =>
    cases h
    exact List.prefix_append _ _

theorem step_refines (hids : ∀ id ∈ ids, ValidId id) (word : Char → Bool) (hc : Hosted ids host cs)
    {op : Op} (hop : SafeStep word ids (render cs) op) :
    step word (render cs) op = render (apply cs op) ∧ Hosted ids host (apply cs op) := by
  obtain ⟨hl, hhead, huser⟩ := hc
  cases op with
  | write id content =>
    obtain ⟨hid, hsafe, hlit⟩ := hop
    refine ⟨writeComposite_render hids word hl hid (fun h => hlit (by simpa [region] using h)),
      hl.setBlock hid hsafe, head_setBlock hhead id content, ?_⟩
    rw [apply, userText_setBlock, huser]
  | remove id =>
    refine ⟨removeComposite_render hids word hl hop, hl.dropBlock id, head_dropBlock hhead id, ?_⟩
    rw [apply, userText_dropBlock, huser]

theorem run_refines (hids : ∀ id ∈ ids, ValidId id) (word : Char → Bool) (hc : Hosted ids host cs)
    {ops : List Op} (hrun : SafeRun word ids (render cs) ops) :
    run word (render cs) ops = render (ops.foldl apply cs) ∧
      Hosted ids host (ops.foldl apply cs) := by
  induction ops generalizing cs with
  | nil => exact ⟨rfl, hc⟩
  | cons op ops ih =>
    obtain ⟨hop, hrest⟩ := hrun
    obtain ⟨hstep, hc'⟩ := step_refines hids word hc hop
    rw [hstep] at hrest
    have := ih hc' hrest
    simpa only [run, List.foldl_cons, hstep] using this

theorem mem_apply_other (cs : List Chunk) (op : Op) {id : String} (hne : id ≠ op.id) (c : Text) :
    .block id c ∈ apply cs op ↔ .block id c ∈ cs := by
  cases op with
  | write i content => exact mem_setBlock_of_ne hne cs
  | remove i =>
    rw [apply, mem_dropBlock]
    exact and_iff_left hne

theorem mem_ledger_iff (ops : List Op) (host : Text) (id : String) (c : Text) :
    .block id c ∈ ops.foldl apply [.user host] ↔ lastWritten ops id = some c := by
  have key : ∀ (cs : List Chunk) (acc : Option Text), (∀ c, .block id c ∈ cs ↔ acc = some c) →
      ∀ c, .block id c ∈ ops.foldl apply cs ↔ ops.foldl (remember id) acc = some c := by
    induction ops with
    | nil => exact fun cs acc h => h
    | cons op ops ih =>
      intro cs acc h
      refine ih _ _ (fun c => ?_)
      by_cases hid : id = op.id
      · cases op with
        | write i content =>
          obtain rfl : id = i := hid
          rw [apply, mem_setBlock, remember, if_pos rfl, Option.some.injEq, eq_comm]
        | remove i =>
          obtain rfl : id = i := hid
          simp [apply, mem_dropBlock, remember]
      · rw [mem_apply_other cs op hid, h c]
        have hremember : remember id acc op = acc := by
          cases op <;> exact if_neg (Ne.symm hid)
        rw [hremember]
  exact key _ none (by simp) c

theorem file_around_block {id : String} {c : Text} (hids : ∀ id ∈ ids, ValidId id)
    (hl : Laid (· ∈ ids) (cs₁ ++ .block id c :: cs₂)) :
    render (cs₁ ++ .block id c :: cs₂) = render cs₁ ++
      (region id (render (cs₁ ++ .block id c :: cs₂))).getD [] ++ render cs₂ := by
  rw [region_of_mem hids hl (List.mem_append_right _ List.mem_cons_self)]
  simp [render, Chunk.text]

theorem file_around_nothing {id : String} (hids : ∀ id ∈ ids, ValidId id)
    (hl : Laid (· ∈ ids) (cs₁ ++ cs₂)) (hid : id ∈ ids) (h : ∀ c, .block id c ∉ cs₁ ++ cs₂) :
    render (cs₁ ++ cs₂) = render cs₁ ++
      (region id (render (cs₁ ++ cs₂))).getD [] ++ render cs₂ := by
  rw [region_of_not_mem hids hl hid h]
  simp [render]

theorem isolated_step {word : Char → Bool} (hids : ∀ id ∈ ids, ValidId id) (hc : Hosted ids host cs)
    {op : Op} (hop : SafeStep word ids (render cs) op) :
    Isolated ids host (render cs) (step word (render cs) op) op.id := by
  obtain ⟨hstep, hc'⟩ := step_refines hids word hc hop
  rw [hstep]
  have hother : ∀ id' ∈ ids, id' ≠ op.id →
      region id' (render (apply cs op)) = region id' (render cs) :=
    fun id' hid' hne => region_congr hids hc.laid hc'.laid hid'
      (fun c => mem_apply_other cs op hne c)
  have hid : op.id ∈ ids := by
    cases op with
    | write id content => exact hop.1
    | remove id => exact hop
  by_cases hm : ∃ c, .block op.id c ∈ cs
  · obtain ⟨c, hcm⟩ := hm
    obtain ⟨cs₁, cs₂, rfl, h₁, h₂⟩ := exists_split hc.laid hcm
    have hne : cs₁ ≠ [] := by
      rintro rfl
      cases hc.head
    refine ⟨render cs₁, render cs₂, host_prefix_render hc.head hne,
      file_around_block hids hc.laid, ?_, hother⟩
    have hl' := hc'.laid
    cases op with
    | write id content =>
      rw [apply, Op.id, setBlock_present h₁ h₂] at *
      exact file_around_block hids hl'
    | remove id =>
      rw [apply, Op.id, dropBlock_present h₁ h₂] at *
      refine file_around_nothing hids hl' hid (fun c' hc' => ?_)
      exact (List.mem_append.mp hc').elim (h₁ c') (h₂ c')
  · have hno : ∀ c, .block op.id c ∉ cs := fun c hc => hm ⟨c, hc⟩
    have hspan : render cs = render cs ++ (region op.id (render cs)).getD [] ++ render [] := by
      rw [region_of_not_mem hids hc.laid hid hno]
      simp [render]
    have hhost : host <+: render cs := by
      refine host_prefix_render (show (cs ++ []).head? = some (.user host) by simpa using hc.head)
        ?_
      rintro rfl
      cases hc.head
    refine ⟨render cs, render [], hhost, hspan, ?_, hother⟩
    have hl' := hc'.laid
    cases op with
    | write id content =>
      rw [apply, setBlock_absent (show ∀ c, .block id c ∉ cs from hno)] at hl' ⊢
      exact file_around_block hids hl'
    | remove id =>
      rw [apply, dropBlock_absent (show ∀ c, .block id c ∉ cs from hno)]
      exact hspan

theorem rewrite_same {word : Char → Bool} (hids : ∀ id ∈ ids, ValidId id) (hc : Hosted ids host cs)
    {id : String} {c : Text} (h : .block id c ∈ cs)
    (hop : SafeStep word ids (render cs) (.write id c)) :
    step word (render cs) (.write id c) = render cs := by
  obtain ⟨hstep, -⟩ := step_refines hids word hc hop
  obtain ⟨cs₁, cs₂, rfl, h₁, h₂⟩ := exists_split hc.laid h
  rw [hstep, apply, setBlock_present h₁ h₂]

theorem mem_removeAll (cs : List Chunk) (rs : List String) (id : String) (c : Text) :
    .block id c ∈ (rs.map Op.remove).foldl apply cs ↔ .block id c ∈ cs ∧ id ∉ rs := by
  induction rs generalizing cs with
  | nil => simp
  | cons r rs ih =>
    rw [List.map_cons, List.foldl_cons, ih, apply, mem_dropBlock, List.mem_cons, not_or, and_assoc]

theorem safeRun_remove (word : Char → Bool) {rs : List String} (h : ∀ r ∈ rs, r ∈ ids)
    (file : Text) : SafeRun word ids file (rs.map Op.remove) := by
  induction rs generalizing file with
  | nil => trivial
  | cons r rs ih =>
    exact ⟨h r (by simp), ih (fun r' hr' => h r' (by simp [hr'])) _⟩

theorem removeAll_restores (hids : ∀ id ∈ ids, ValidId id) (word : Char → Bool)
    (hc : Hosted ids host cs) : run word (render cs) (ids.map .remove) = host := by
  obtain ⟨hend, hc'⟩ := run_refines hids word hc (safeRun_remove word (fun _ h => h) _)
  rw [hend, render_of_no_block, hc'.user]
  intro id c hm
  obtain ⟨hmem, hid⟩ := (mem_removeAll cs ids id c).mp hm
  exact hid (hc.laid.safe id c hmem).1

end Run

/-- In a run of safe steps over a host without begin markers, every id's region is the block last
written for it, writing that block again changes nothing, a step touches its own block alone, and
removing all ids restores the host. -/
theorem safeRun_isolated (word : Char → Bool) (ids : List String) (host : Text) (ops : List Op)
    (hids : ∀ id ∈ ids, ValidId id) (hhost : ∀ id ∈ ids, ¬ beginMarker id <:+: host)
    (hrun : SafeRun word ids host ops) :
    (∀ id c, lastWritten ops id = some c → region id (run word host ops) =
      some (compositeBlock id c)) ∧
    (∀ id c, lastWritten ops id = some c → SafeStep word ids (run word host ops) (.write id c) →
      step word (run word host ops) (.write id c) = run word host ops) ∧
    (∀ op, SafeStep word ids (run word host ops) op →
      Isolated ids host (run word host ops) (step word (run word host ops) op) op.id) ∧
    run word (run word host ops) (ids.map .remove) = host := by
  have hstart : render [.user host] = host := by simp [render, Chunk.text]
  obtain ⟨hfile, hc⟩ := run_refines hids word (hosted_start hhost) (hstart.symm ▸ hrun)
  rw [hstart] at hfile
  rw [hfile]
  refine ⟨fun id c hw => ?_, fun id c hw hop => ?_, fun op hop => ?_, ?_⟩
  · exact region_of_mem hids hc.laid ((mem_ledger_iff ops host id c).mpr hw)
  · exact rewrite_same hids hc ((mem_ledger_iff ops host id c).mpr hw) hop
  · exact isolated_step hids hc hop
  · exact removeAll_restores hids word hc

def wordRune (c : Char) : Bool := c.isAlphanum || c = '_'

def twoPlugins : List Op :=
  [.write "a" ['u', 's', 'e'], .write "b" ['$', '5', '\n'], .write "a" ['n', 'e', 'w'], .remove "b"]

theorem twoPlugins_isolated :
    region "a" (run wordRune ['h', 'i'] twoPlugins) =
      some (compositeBlock "a" ['n', 'e', 'w']) := by
  have hsafe : SafeRun wordRune ["a", "b"] ['h', 'i'] twoPlugins :=
    ⟨⟨by decide, by decide, by decide⟩, ⟨by decide, by decide, by decide⟩,
      ⟨by decide, by decide, by decide⟩, (by decide : "b" ∈ ["a", "b"]), trivial⟩
  have hiso :=
    safeRun_isolated wordRune ["a", "b"] ['h', 'i'] twoPlugins (by decide) (by decide) hsafe
  exact hiso.1 "a" ['n', 'e', 'w'] (by decide)

/-- Writing a block with a dollar amount twice loses the amount, and a content with its own end
marker cuts its block short. -/
theorem composite_not_idempotent :
    step wordRune (step wordRune [] (.write "a" ['$', '5'])) (.write "a" ['$', '5']) ≠
        step wordRune [] (.write "a" ['$', '5']) ∧
      region "a" (step wordRune [] (.write "a" (endMarker "a" ++ ['x']))) ≠
        some (compositeBlock "a" (endMarker "a" ++ ['x'])) := by
  decide

end AchProofs.Cli.CompositeRun
