import AchProofs.Localpkg.Install

/-!
The preview of an uninstall and the uninstall, on a tree with directories: those that a removal
leaves empty go with it, and so does a link to one.
-/

namespace AchProofs.Localpkg.Install

open Hydrate Cli.Composite

variable {α : Type}

inductive Node (α : Type) where
  | file (body : File α)
  | dir
  | link
deriving DecidableEq

/-- What lies at each place. A file is known by the path it is written to, which is its own place as
long as no link is on the way. -/
abbrev Drive (α : Type) := List (List (List Char) × Node α)

namespace Drive

variable (v : Drive α) (q : List (List Char))

def node : Option (Node α) := (v.find? fun e => e.1 = q).map Prod.snd

def drop : Drive α := v.filter fun e => e.1 ≠ q

def put (body : File α) : Drive α := (q, .file body) :: v.drop q

/-- `os.Remove` takes a directory that is empty. It takes a link whatever it leads to, and all that
was reached through it is gone. -/
def remove : Option (Drive α) :=
  match v.node q with
  | none => none
  | some (.file _) => some (v.drop q)
  | some .dir => if v.any fun e => e.1 ≠ [] ∧ e.1.dropLast = q then none else some (v.drop q)
  | some .link => some (v.filter fun e => ¬ q <+: e.1)

def pruneEmptyDirs : Drive α → List (List (List Char)) → Drive α
  | v, [] => v
  | v, d :: ds =>
    match v.remove d with
    | none => v
    | some v' => pruneEmptyDirs v' ds

variable {v q} {p : List (List Char)}

theorem node_drop : (v.drop q).node p = if p = q then none else v.node p := by
  unfold node drop
  rw [List.find?_filter]
  split_ifs with h
  · simp [h]
  · congr 2
    funext e
    by_cases he : e.1 = p <;> simp [he, h]

theorem node_put (body : File α) :
    (v.put q body).node p = if p = q then some (.file body) else v.node p := by
  by_cases h : p = q
  · simp [node, put, h]
  · have := node_drop (v := v) (q := q) (p := p)
    simp_all [node, put, eq_comm]

end Drive

/-- The directories that `pruneEmptyDirs` tries, from that of the file up to the root, which it
leaves. -/
def dirsBelow (root path : String) : List (List (List Char)) :=
  let base := (Gitfetch.clean root.toList).segs
  (Gitfetch.clean path.toList).segs.dropLast.inits.reverse.filter fun d =>
    base ≠ [] ∧ base <+: d ∧ d ≠ base

/-- What a preview says of a record. -/
inductive Verdict where
  | remove
  | modify
  | skip
  | absent
deriving DecidableEq

def UninstallOp.verdict : UninstallOp α → Verdict
  | .remove => .remove
  | .modify _ => .modify
  | .skip => .skip

def FileRec.segs (root : String) (f : FileRec α) : List (List Char) :=
  (Gitfetch.clean (resolveDest root f.relPath).toList).segs

/-- What an uninstall has come to: the tree, the operations in order, and the skipped paths. -/
structure Done (α : Type) where
  drive : Drive α
  ops : List (String × Verdict)
  skipped : List String

variable [DecidableEq α] (word : Char → Bool) (contained : String → Bool) (sc : Scope)
  (root : String)

/-- The verdict on a record, unless there is something else than a file. -/
def planned (v : Drive α) (f : FileRec α) : Option Verdict :=
  match v.node (f.segs root) with
  | none => some .absent
  | some (.file body) => some (classifyUninstall word f body).verdict
  | some _ => none

/-- Every record is looked up on the tree as it is. -/
def uninstallPlan (v : Drive α) (fs : List (FileRec α)) : Option (List (String × Verdict)) :=
  if checkUninstall contained sc fs then
    fs.mapM fun f => (planned word sc.root v f).map fun verdict => (f.relPath, verdict)
  else none

/-- One record: what is done with its file, and the tree afterwards. -/
def Drive.uninstallOne (v : Drive α) (f : FileRec α) : Option (Verdict × Drive α) :=
  match v.node (f.segs root) with
  | none => some (.absent, v)
  | some (.file body) =>
    match classifyUninstall word f body with
    | .skip => some (.skip, v)
    | .modify body => some (.modify, v.put (f.segs root) body)
    | .remove =>
      some (.remove,
        (v.drop (f.segs root)).pruneEmptyDirs (dirsBelow root (resolveDest root f.relPath)))
  | some _ => none

def Done.next (d : Done α) (f : FileRec α) : Option (Done α) :=
  (d.drive.uninstallOne word root f).map fun (op, v) =>
    ⟨v, d.ops ++ [(f.relPath, op)], if op = .skip then d.skipped ++ [f.relPath] else d.skipped⟩

def uninstallDone (v : Drive α) (fs : List (FileRec α)) : Option (Done α) :=
  if checkUninstall contained sc fs then fs.foldlM (Done.next word sc.root) ⟨v, [], []⟩
  else none

/-- The body without the part of the record, where it has one. -/
def FileRec.cut (f : FileRec α) (body : File α) : File α :=
  match f.merge, body with
  | .composite, .text t => .text (removeComposite word (f.keys.headD "") t)
  | .deep, .doc d => .doc ((pruneDoc d f.keys).getD d)
  | _, body => body

section Conditions

variable (v : Drive α) (before : List (FileRec α))

/-- On the way to the file of a record there are directories only, no links. -/
def Straight (f : FileRec α) : Prop := ∀ m ∈ (f.segs root).dropLast.inits, ∀ x ∈ v.node m, x = .dir

instance (f : FileRec α) : Decidable (Straight root v f) :=
  inferInstanceAs (Decidable (∀ m ∈ (f.segs root).dropLast.inits, ∀ x ∈ v.node m, x = .dir))

/-- One of the records is to remove the file at a place. -/
def Takes (q : List (List Char)) : Prop :=
  ∃ e ∈ before, planned word root v e = some .remove ∧ e.segs root = q

instance (q : List (List Char)) : Decidable (Takes word root v before q) :=
  inferInstanceAs (Decidable (∃ e ∈ before, planned word root v e = some .remove ∧ e.segs root = q))

/-- What is left of the file at a place without the parts of the records that are to be cut. -/
def cutAt (q : List (List Char)) (body : File α) : File α :=
  (before.filter fun e => planned word root v e = some .modify ∧ e.segs root = q).foldl
    (fun body e => e.cut word body) body

/-- If the file of a record is there, then none of those before it is to remove it, and without the
parts that they are to cut from it the verdict is the same. -/
def Spared (f : FileRec α) : Prop :=
  ∀ body, v.node (f.segs root) = some (.file body) →
    ¬ Takes word root v before (f.segs root) ∧
    (classifyUninstall word f (cutAt word root v before (f.segs root) body)).verdict =
      (classifyUninstall word f body).verdict

end Conditions

variable {word root} {f : FileRec α} {v v' v₁ : Drive α} {before : List (FileRec α)}
  {body : File α} {q : List (List Char)}

theorem eq_cut_of_modify {body' : File α} (h : classifyUninstall word f body = .modify body') :
    body' = f.cut word body := by
  have hreplace : classifyReplace f body ≠ .modify body' := by
    unfold classifyReplace
    split_ifs <;> simp
  unfold classifyUninstall at h
  unfold FileRec.cut
  split at h
  · rename_i t hmerge
    dsimp only at h
    split_ifs at h
    · exact absurd h hreplace
    · rw [hmerge]
      exact (UninstallOp.modify.inj h).symm
  · rename_i d hmerge
    split_ifs at h
    · exact absurd h hreplace
    · rw [hmerge]
      exact (UninstallOp.modify.inj h).symm
  · rename_i d hmerge
    split at h
    · cases h
    · rename_i d' hprune
      simp only [hmerge, hprune, Option.getD_some]
      exact (UninstallOp.modify.inj h).symm
  · cases h
  · exact absurd h hreplace

omit [DecidableEq α] in
theorem verdict_ne_absent (op : UninstallOp α) : op.verdict ≠ .absent := by
  cases op <;> simp [UninstallOp.verdict]

theorem takes_append : Takes word root v (before ++ [f]) q ↔
    Takes word root v before q ∨ planned word root v f = some .remove ∧ f.segs root = q := by
  simp [Takes, or_and_right, exists_or]

theorem cutAt_append :
    cutAt word root v (before ++ [f]) q body =
      if planned word root v f = some .modify ∧ f.segs root = q then
        f.cut word (cutAt word root v before q body)
      else cutAt word root v before q body := by
  unfold cutAt
  rw [List.filter_append, List.foldl_append, List.filter_cons]
  split_ifs <;> simp_all

/-- What the records uninstalled so far, all as previewed, have left of the tree. -/
structure Follows (word : Char → Bool) (root : String) (v v' : Drive α)
    (before : List (FileRec α)) : Prop where
  taken : ∀ q, Takes word root v before q → v'.node q = none
  kept : ∀ q body, v.node q = some (.file body) → ¬ Takes word root v before q →
    v'.node q = some (.file (cutAt word root v before q body))
  other : ∀ q, (∀ body, v.node q ≠ some (.file body)) → v'.node q = v.node q ∨ v'.node q = none

theorem follows_nil : Follows word root v v [] :=
  ⟨fun _ ⟨_, he, _⟩ => absurd he List.not_mem_nil, fun _ _ hq _ => hq, fun _ _ => .inl rfl⟩

theorem Follows.dir_of_dir (h : Follows word root v v' before) {x : Node α}
    (hd : ∀ x ∈ v.node q, x = .dir) (hx : x ∈ v'.node q) : x = .dir := by
  obtain heq | hnone := h.other q fun body hq => by cases hd _ hq
  · exact hd x (heq ▸ hx)
  · rw [hnone] at hx
    cases hx

/-- A record that neither removes nor rewrites its file. -/
theorem Follows.idle (h : Follows word root v v' before)
    (hrem : planned word root v f ≠ some .remove) (hmod : planned word root v f ≠ some .modify) :
    Follows word root v v' (before ++ [f]) where
  taken q hq := h.taken q ((takes_append.mp hq).resolve_right fun hf => hrem hf.1)
  kept q body hq hn := by
    rw [cutAt_append, if_neg fun hf => hmod hf.1]
    exact h.kept q body hq fun ht => hn (takes_append.mpr (.inl ht))
  other := h.other

theorem Follows.rewritten (h : Follows word root v v' before)
    (hplan : planned word root v f = some .modify)
    (hbody : v.node (f.segs root) = some (.file body))
    (hn : ¬ Takes word root v before (f.segs root)) :
    Follows word root v (v'.put (f.segs root)
      (f.cut word (cutAt word root v before (f.segs root) body))) (before ++ [f]) := by
  have htakes : ∀ q, Takes word root v (before ++ [f]) q ↔ Takes word root v before q :=
    fun q => takes_append.trans (or_iff_left (by simp [hplan]))
  refine ⟨fun q hq => ?_, fun q body' hq hq' => ?_, fun q hq => ?_⟩
  · rw [htakes] at hq
    rw [Drive.node_put, if_neg (by rintro rfl; exact hn hq)]
    exact h.taken q hq
  · rw [htakes] at hq'
    rw [Drive.node_put, cutAt_append]
    split_ifs with hqf hcut hcut
    · obtain rfl : body' = body := by simpa [hqf, hbody] using hq.symm
      rw [hqf]
    · exact absurd ⟨hplan, hqf.symm⟩ hcut
    · exact absurd hcut.2.symm hqf
    · exact h.kept q body' hq hq'
  · rw [Drive.node_put, if_neg (by rintro rfl; exact hq _ hbody)]
    exact h.other q hq

omit [DecidableEq α] in
theorem mem_of_mem_drop {p : List (List Char)} {x : Node α} (h : x ∈ (v.drop q).node p) :
    x ∈ v.node p := by
  rw [Drive.node_drop] at h
  split_ifs at h
  · cases h
  · exact h

omit [DecidableEq α] in
theorem remove_some {d : List (List Char)} (hd : ∀ x ∈ v.node d, x = .dir)
    (h : v.remove d = some v₁) : v.node d = some .dir ∧ v.drop d = v₁ := by
  cases hn : v.node d with
  | none => simp [Drive.remove, hn] at h
  | some x =>
    obtain rfl := hd x hn
    simp only [Drive.remove, hn] at h
    split_ifs at h
    exact ⟨rfl, Option.some.inj h⟩

omit [DecidableEq α] in
/-- Pruning takes directories only where there are no links. -/
theorem node_prune {ds : List (List (List Char))} (h : ∀ d ∈ ds, ∀ x ∈ v₁.node d, x = .dir)
    (q : List (List Char)) : (v₁.pruneEmptyDirs ds).node q = v₁.node q ∨
      v₁.node q = some .dir ∧ (v₁.pruneEmptyDirs ds).node q = none := by
  induction ds generalizing v₁ with
  | nil => exact .inl rfl
  | cons d ds ih =>
    rw [Drive.pruneEmptyDirs]
    cases hrem : v₁.remove d with
    | none => exact .inl rfl
    | some v₂ =>
      obtain ⟨hdir, rfl⟩ := remove_some (h d List.mem_cons_self) hrem
      have hq := ih fun e he x hx => h e (List.mem_cons_of_mem _ he) x (mem_of_mem_drop (q := d) hx)
      rw [Drive.node_drop] at hq
      split_ifs at hq with hqd
      · exact .inr ⟨hqd ▸ hdir, hq.elim id And.right⟩
      · exact hq

theorem Follows.removed (h : Follows word root v v' before)
    (hf : Straight root v f) (hplan : planned word root v f = some .remove) :
    Follows word root v ((v'.drop (f.segs root)).pruneEmptyDirs
      (dirsBelow root (resolveDest root f.relPath))) (before ++ [f]) := by
  have hway : ∀ d ∈ dirsBelow root (resolveDest root f.relPath),
      ∀ x ∈ (v'.drop (f.segs root)).node d, x = .dir := fun d hd x hx =>
    h.dir_of_dir (hf d (List.mem_reverse.mp (List.mem_of_mem_filter hd))) (mem_of_mem_drop hx)
  have hp := node_prune hway
  refine ⟨fun q hq => ?_, fun q body' hq hn => ?_, fun q hq => ?_⟩
  · have hnone : (v'.drop (f.segs root)).node q = none := by
      rw [Drive.node_drop]
      split_ifs with hqf
      · rfl
      · exact h.taken q ((takes_append.mp hq).resolve_right fun hf => hqf hf.2.symm)
    exact (hp q).elim (·.trans hnone) And.right
  · have hkept := h.kept q body' hq fun ht => hn (takes_append.mpr (.inl ht))
    have hqf : q ≠ f.segs root := fun heq => hn (takes_append.mpr (.inr ⟨hplan, heq.symm⟩))
    rw [cutAt_append, if_neg (by simp [hplan]), ← hkept]
    have hdrop : (v'.drop (f.segs root)).node q = v'.node q := by rw [Drive.node_drop, if_neg hqf]
    refine ((hp q).resolve_right fun hdir => ?_).trans hdrop
    rw [hdrop, hkept] at hdir
    cases hdir.1
  · obtain heq | ⟨-, hnone⟩ := hp q
    · rw [heq, Drive.node_drop]
      split_ifs
      · exact .inr rfl
      · exact h.other q hq
    · exact .inr hnone

/-- A record is uninstalled as previewed if and only if those before it spare it. -/
theorem Follows.step {w : Verdict} (h : Follows word root v v' before) (hf : Straight root v f)
    (hw : planned word root v f = some w) :
    ∃ op v₁, v'.uninstallOne word root f = some (op, v₁) ∧
      (op = w ↔ Spared word root v before f) ∧
      (Spared word root v before f → Follows word root v v₁ (before ++ [f])) := by
  have hplan := hw
  unfold planned at hw
  unfold Drive.uninstallOne Spared
  split at hw
  · rename_i hnone
    have hnone' : v'.node (f.segs root) = none :=
      (h.other _ (by simp [hnone])).elim (·.trans hnone) id
    obtain rfl := Option.some.inj hw
    rw [hnone', hnone]
    exact ⟨.absent, v', rfl, by simp, fun _ => h.idle (by simp [hplan]) (by simp [hplan])⟩
  · rename_i body hbody
    obtain rfl := Option.some.inj hw
    simp only [hbody, Option.some.injEq, Node.file.injEq, forall_eq']
    by_cases ht : Takes word root v before (f.segs root)
    · rw [h.taken _ ht]
      exact ⟨.absent, v', rfl, iff_of_false (verdict_ne_absent _).symm fun hs => hs.1 ht,
        fun hs => absurd ht hs.1⟩
    · rw [h.kept _ body hbody ht]
      simp only [ht, not_false_eq_true, true_and]
      cases hc : classifyUninstall word f (cutAt word root v before (f.segs root) body) with
      | skip =>
        refine ⟨.skip, v', rfl, Iff.rfl, fun hs => ?_⟩
        rw [← hs] at hplan
        exact h.idle (by simp [hplan, UninstallOp.verdict]) (by simp [hplan, UninstallOp.verdict])
      | modify body' =>
        refine ⟨.modify, _, rfl, Iff.rfl, fun hs => ?_⟩
        rw [eq_cut_of_modify hc]
        exact h.rewritten (hplan.trans (congrArg some hs.symm)) hbody ht
      | remove =>
        exact ⟨.remove, _, rfl, Iff.rfl, fun hs =>
          h.removed hf (hplan.trans (congrArg some hs.symm))⟩
  · cases hw

section Runs

variable {d d' : Done α} {rest : List (FileRec α)} {plan : List (String × Verdict)}

/-- The skipped among the operations. -/
def skips (ops : List (String × Verdict)) : List String := (ops.filter (·.2 = .skip)).map Prod.fst

theorem next_ops (h : d.next word root f = some d') : ∃ op v₁,
    d.drive.uninstallOne word root f = some (op, v₁) ∧ d'.ops = d.ops ++ [(f.relPath, op)] ∧
      d'.skipped = d.skipped ++ skips [(f.relPath, op)] := by
  obtain ⟨⟨op, v₁⟩, hone, rfl⟩ := Option.map_eq_some_iff.mp h
  refine ⟨op, v₁, hone, rfl, ?_⟩
  by_cases hskip : op = .skip <;> simp [skips, hskip]

/-- A run adds operations, and reports those that are skipped. -/
theorem run_ops (h : rest.foldlM (Done.next word root) d = some d') :
    ∃ ops, d'.ops = d.ops ++ ops ∧ d'.skipped = d.skipped ++ skips ops := by
  induction rest generalizing d with
  | nil =>
    obtain rfl := Option.some.inj h
    exact ⟨[], by simp [skips]⟩
  | cons f rest ih =>
    obtain ⟨d₁, hnext, h⟩ := Option.bind_eq_some_iff.mp (List.foldlM_cons.symm.trans h)
    obtain ⟨op, -, -, hops, hskipped⟩ := next_ops hnext
    obtain ⟨ops, hops', hskipped'⟩ := ih h
    refine ⟨(f.relPath, op) :: ops, by simp [hops', hops], ?_⟩
    rw [hskipped', hskipped, List.append_assoc, skips, skips, ← List.map_append,
      ← List.filter_append]
    rfl

theorem exists_plan (h : ∀ f ∈ rest, planned word root v f ≠ none) :
    ∃ plan, rest.mapM (fun f => (planned word root v f).map fun w => (f.relPath, w)) =
      some plan := by
  induction rest with
  | nil => exact ⟨[], rfl⟩
  | cons f rest ih =>
    obtain ⟨w, hw⟩ := Option.ne_none_iff_exists'.mp (h f List.mem_cons_self)
    obtain ⟨plan, hplan⟩ := ih fun g hg => h g (List.mem_cons_of_mem _ hg)
    exact ⟨(f.relPath, w) :: plan, by simp [List.mapM_cons, hw, hplan]⟩

theorem run_ops_iff (h : Follows word root v d.drive before)
    (hst : ∀ f ∈ rest, Straight root v f)
    (hplan : rest.mapM (fun f => (planned word root v f).map fun w => (f.relPath, w)) = some plan) :
    (∃ d', rest.foldlM (Done.next word root) d = some d' ∧ d'.ops = d.ops ++ plan) ↔
      ∀ b f r, rest = b ++ f :: r → Spared word root v (before ++ b) f := by
  induction rest generalizing before d plan with
  | nil =>
    obtain rfl := Option.some.inj hplan
    exact iff_of_true ⟨d, rfl, by simp⟩ (by simp)
  | cons f rest ih =>
    obtain ⟨w, hw, plan, htail, rfl⟩ : ∃ w, planned word root v f = some w ∧ ∃ plan',
        rest.mapM (fun f => (planned word root v f).map fun w => (f.relPath, w)) = some plan' ∧
          (f.relPath, w) :: plan' = plan := by
      simpa [List.mapM_cons, Option.bind_eq_some_iff] using hplan
    have hsplit : (∀ b g r, f :: rest = b ++ g :: r → Spared word root v (before ++ b) g) ↔
        Spared word root v before f ∧
          ∀ b g r, rest = b ++ g :: r → Spared word root v (before ++ [f] ++ b) g := by
      constructor
      · exact fun hall => ⟨by simpa using hall [] f rest rfl, fun b g r hr => by
          simpa using hall (f :: b) g r (by simp [hr])⟩
      · rintro ⟨hf, hall⟩ (_ | ⟨_, b⟩) g r hr <;> cases hr
        · simpa using hf
        · simpa using hall b g r rfl
    obtain ⟨op, v₁, hone, hop, hfollows⟩ := h.step (hst f List.mem_cons_self) hw
    have hnext : d.next word root f = some _ := congrArg (Option.map _) hone
    rw [hsplit, List.foldlM_cons, hnext]
    by_cases hs : Spared word root v before f
    · obtain rfl := hop.mpr hs
      rw [and_iff_right hs, ← ih (d := ⟨v₁, d.ops ++ [(f.relPath, op)], _⟩) (hfollows hs)
        (fun g hg => hst g (List.mem_cons_of_mem _ hg)) htail, List.append_assoc]
      rfl
    · refine iff_of_false ?_ fun hall => hs hall.1
      rintro ⟨d', hd', hops⟩
      obtain ⟨ops, hops', -⟩ := run_ops hd'
      have heq : op = w ∧ ops = plan := by simpa using hops'.symm.trans hops
      exact hs (hop.mp heq.1)

end Runs

def inRoot (ns : List String) : List (List Char) := "r".toList :: ns.map String.toList

def commandRec (path : String) : FileRec String := ⟨path, .text [], .replace, []⟩

def sectionRec (key : String) : FileRec String := ⟨"s.json", .text [], .deep, [key]⟩

/-- Two commands in a directory of their own, and a settings file with the user's own section. -/
def twoCommands : Drive String :=
  [(inRoot [], .dir), (inRoot ["commands"], .dir), (inRoot ["commands", "a.md"], .file (.text [])),
    (inRoot ["commands", "b.md"], .file (.text [])),
    (inRoot ["s.json"], .file (.doc
      ⟨.leaf "a" "1" (.leaf "b" "2" (.leaf "c" "3" .nil)), by decide⟩))]

/-- A link goes with the last file below a directory behind it, and what else was reached through it
is then absent. -/
example : (uninstallDone (fun _ => true) (fun _ => true) ⟨"/r", false⟩
      [(inRoot [], .dir), (inRoot [".claude"], .link), (inRoot [".claude", "commands"], .dir),
        (inRoot [".claude", "commands", "y.md"], .file (.text [])),
        (inRoot [".claude", "x.md"], .file (.text []))]
      [commandRec ".claude/commands/y.md", commandRec ".claude/x.md"]).map (·.ops) =
    some [(".claude/commands/y.md", .remove), (".claude/x.md", .absent)] := by
  decide +kernel

end AchProofs.Localpkg.Install
