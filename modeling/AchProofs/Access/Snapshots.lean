import AchProofs.Access.EnvTable
import AchProofs.Foundation.Run

namespace AchProofs.Access.Snapshots

open Foundation

/-- A snapshot cache of a table: the map before the first refresh, the map a refresh builds from the
rows it read, and what a lookup finds in a map. -/
structure Cache (T M K A : Type) where
  empty : M
  build : T → M
  get : M → K → A

section Caches

/-- The forwarder's `envstore`: rows by name. -/
def envstore (ns : String) :
    Cache EnvTable (String → Option EnvironmentRow) String (Option EnvironmentRow) where
  empty := fun _ => none
  build t := (t.listEnvironments ns).foldl (fun m r => Function.update m r.name (some r))
    (fun _ => none)
  get m name := m name

/-- The fields of an environment that the content service's gates read. -/
structure EnvRow where
  authorizedTeams : List String
  contextPrompts : List String
  contextPlugins : List String
  contextArtifacts : List String
  contextSkills : List String
deriving DecidableEq

def EnvRow.ofRow (r : EnvironmentRow) : EnvRow :=
  ⟨r.authorizedTeams, r.contextPrompts, r.contextPlugins, r.contextArtifacts, r.contextSkills⟩

/-- The content service's `envcache`. -/
def envcache (ns : String) : Cache EnvTable (String → Option EnvRow) String (Option EnvRow) where
  empty := fun _ => none
  build t := (t.listEnvironments ns).foldl
    (fun m r => Function.update m r.name (some (EnvRow.ofRow r))) (fun _ => none)
  get m name := m name

inductive TargetKind where
  | mcpServer
  | a2aAgent
deriving DecidableEq

structure BIPRow where
  ns : String
  name : String
  targetKind : TargetKind
  targetName : String
  forwardIdentityJWT : Bool
  consentBroker : String
  consentAudience : String
deriving DecidableEq

def listAllBIPs (ns : String) (rows : List BIPRow) : List BIPRow :=
  (rows.filter (fun r => r.ns = ns)).mergeSort (fun a b => a.name ≤ b.name)

/-- The forwarder's `bipcache`: the policies of a target, of which the first by name wins, and an
explicit opt-out of that one counts as none. -/
def bipcache (ns : String) :
    Cache (List BIPRow) (TargetKind × String → List BIPRow) (TargetKind × String)
      (Option BIPRow) where
  empty := fun _ => []
  build rows := (listAllBIPs ns rows).foldl
    (fun m r =>
      Function.update m (r.targetKind, r.targetName) (m (r.targetKind, r.targetName) ++ [r]))
    (fun _ => [])
  get m key :=
    match m key with
    | [] => none
    | first :: _ => if first.forwardIdentityJWT then some first else none

end Caches

/-- The two goroutines of `RunRefreshLoop`: its own, with the first refresh and the ticker's, and
the one that serves the `NOTIFY` triggers. -/
inductive Who where
  | main
  | notify
deriving DecidableEq

/-- Where a goroutine stands: not started, about to refresh, waiting for its channel, or between the
read and the swap with the rows of a version in hand. -/
inductive Loop (T : Type) where
  | off
  | ready
  | waiting
  | read (version : ℕ) (rows : T)

structure Answer (K A : Type) where
  version : ℕ
  key : K
  answer : A
deriving DecidableEq

variable {T M K A : Type}

/-- The committed versions of the table, oldest first and counted from one, the goroutines with
their channels of one place, the map that lookups see with the version it was built from (zero
before the first refresh), and the answers given so far, newest first. -/
structure State (T M K A : Type) where
  log : List T
  loop : Who → Loop T
  signal : Who → Bool
  shown : M
  version : ℕ
  answers : List (Answer K A)

inductive Act (T K : Type) where
  | commit (table : T)
  | signal (who : Who)
  | take (who : Who)
  | read (who : Who)
  | fail (who : Who)
  | swap (who : Who)
  | get (key : K)

/-- A refresh is over. After the first one the loop starts the goroutine for the triggers. -/
def settle (loop : Who → Loop T) (who : Who) : Who → Loop T :=
  fun w => if w = who then .waiting else match loop w with
    | .off => .waiting
    | l => l

def step (c : Cache T M K A) (s : State T M K A) : Act T K → Option (State T M K A)
  | .commit table => some { s with log := s.log ++ [table] }
  | .signal who =>
    -- the ticker and the trigger channel are made after the first refresh
    match s.loop .notify with
    | .off => none
    | _ => some { s with signal := Function.update s.signal who true }
  | .take who =>
    match s.loop who, s.signal who with
    | .waiting, true => some { s with
        loop := Function.update s.loop who .ready
        signal := Function.update s.signal who false }
    | _, _ => none
  | .read who =>
    match s.loop who, s.log.getLast? with
    | .ready, some rows => some { s with
        loop := Function.update s.loop who (.read s.log.length rows) }
    | _, _ => none
  | .fail who =>
    match s.loop who with
    | .ready => some { s with loop := settle s.loop who }
    | .read _ _ => some { s with loop := settle s.loop who }
    | _ => none
  | .swap who =>
    match s.loop who with
    | .read version rows => some { s with
        loop := settle s.loop who, shown := c.build rows, version := version }
    | _ => none
  | .get key => some { s with answers := ⟨s.version, key, c.get s.shown key⟩ :: s.answers }

def start (c : Cache T M K A) (table : T) : State T M K A where
  log := [table]
  loop := fun
    | .main => .ready
    | .notify => .off
  signal := fun _ => false
  shown := c.empty
  version := 0
  answers := []

/-- A refresh reads only while the other goroutine is not between its own read and swap. -/
def Serial (s : State T M K A) : Act T K → Prop
  | .read who => ∀ w v rows, w ≠ who → s.loop w ≠ .read v rows
  | _ => True

def mapAt (c : Cache T M K A) (log : List T) : ℕ → M
  | 0 => c.empty
  | v + 1 => (log[v]?).elim c.empty c.build

section Inv

variable {c : Cache T M K A} {s s' : State T M K A}

/-- What is shown and what is in hand are versions of the table. -/
structure DataInv (c : Cache T M K A) (s : State T M K A) : Prop where
  le : s.version ≤ s.log.length
  shown : s.shown = mapAt c s.log s.version
  held : ∀ w v rows, s.loop w = .read v rows → v ≤ s.log.length ∧ c.build rows = mapAt c s.log v
  answers : ∀ a ∈ s.answers, a.version ≤ s.log.length
    ∧ a.answer = c.get (mapAt c s.log a.version) a.key

theorem mapAt_append {log : List T} {v : ℕ} (h : v ≤ log.length) (t : T) :
    mapAt c (log ++ [t]) v = mapAt c log v := by
  cases v with
  | zero => rfl
  | succ v => simp only [mapAt, List.getElem?_append_left h]

theorem mapAt_length {log : List T} {rows : T} (h : log.getLast? = some rows) :
    mapAt c log log.length = c.build rows := by
  obtain ⟨pre, rfl⟩ := List.getLast?_eq_some_iff.mp h
  simp [mapAt, List.length_append]

theorem settle_read {loop : Who → Loop T} {who w : Who} {v : ℕ} {rows : T}
    (h : settle loop who w = .read v rows) : w ≠ who ∧ loop w = .read v rows := by
  unfold settle at h
  split_ifs at h with hw
  refine ⟨hw, ?_⟩
  split at h
  · cases h
  · exact h

theorem DataInv.settle (hs : DataInv c s) (who : Who) :
    DataInv c { s with loop := settle s.loop who } :=
  ⟨hs.le, hs.shown, fun w v rows h => hs.held w v rows (settle_read h).2, hs.answers⟩

theorem DataInv.update (hs : DataInv c s) {who : Who} {l : Loop T} (signal : Who → Bool)
    (hl : ∀ v rows, l = .read v rows → v ≤ s.log.length ∧ c.build rows = mapAt c s.log v) :
    DataInv c { s with loop := Function.update s.loop who l, signal := signal } := by
  refine ⟨hs.le, hs.shown, fun w v rows h => ?_, hs.answers⟩
  have h : Function.update s.loop who l w = .read v rows := h
  rw [Function.update_apply] at h
  split_ifs at h
  · exact hl v rows h
  · exact hs.held w v rows h

theorem DataInv.step (hs : DataInv c s) {act : Act T K} (h : step c s act = some s') :
    DataInv c s' := by
  cases act with
  | commit table =>
    cases h
    have hlen : s.log.length ≤ (s.log ++ [table]).length := by
      rw [List.length_append]
      exact Nat.le_add_right _ _
    refine ⟨Nat.le_trans hs.le hlen, ?_, fun w v rows h => ?_, fun a ha => ?_⟩
    · rw [hs.shown]
      exact (mapAt_append hs.le table).symm
    · obtain ⟨hv, hrows⟩ := hs.held w v rows h
      exact ⟨Nat.le_trans hv hlen, hrows.trans (mapAt_append hv table).symm⟩
    · obtain ⟨hv, hans⟩ := hs.answers a ha
      refine ⟨Nat.le_trans hv hlen, hans.trans ?_⟩
      rw [mapAt_append hv table]
  | signal who =>
    simp only [Snapshots.step] at h
    split at h
    · cases h
    · cases h
      exact ⟨hs.le, hs.shown, hs.held, hs.answers⟩
  | take who =>
    simp only [Snapshots.step] at h
    split at h
    · cases h
      exact hs.update _ (fun v rows h => nomatch h)
    · cases h
  | read who =>
    simp only [Snapshots.step] at h
    split at h
    · rename_i rows _ hlast
      cases h
      refine hs.update s.signal (fun v rows' h => ?_)
      cases h
      exact ⟨Nat.le_refl _, (mapAt_length hlast).symm⟩
    · cases h
  | fail who =>
    simp only [Snapshots.step] at h
    split at h
    · cases h
      exact hs.settle who
    · cases h
      exact hs.settle who
    · cases h
  | swap who =>
    simp only [Snapshots.step] at h
    split at h
    · rename_i version rows hw
      cases h
      obtain ⟨hv, hrows⟩ := hs.held who version rows hw
      exact ⟨hv, hrows, (hs.settle who).held, hs.answers⟩
    · cases h
  | get key =>
    cases h
    refine ⟨hs.le, hs.shown, hs.held, fun a ha => ?_⟩
    obtain rfl | ha := List.mem_cons.mp ha
    · exact ⟨hs.le, by rw [hs.shown]⟩
    · exact hs.answers a ha

/-- While refreshes do not overlap, the one under way has read no older a version than is shown. -/
structure OrderInv (s : State T M K A) : Prop where
  one : ∀ w w' v v' rows rows', s.loop w = .read v rows → s.loop w' = .read v' rows' → w = w'
  newer : ∀ w v rows, s.loop w = .read v rows → s.version ≤ v
  seen : ∀ a ∈ s.answers, a.version ≤ s.version
  sorted : s.answers.Pairwise (fun later earlier => earlier.version ≤ later.version)

theorem OrderInv.settle (hs : OrderInv s) (who : Who) :
    OrderInv { s with loop := settle s.loop who } :=
  ⟨fun w w' v v' rows rows' h h' =>
    hs.one w w' v v' rows rows' (settle_read h).2 (settle_read h').2,
    fun w v rows h => hs.newer w v rows (settle_read h).2, hs.seen, hs.sorted⟩

theorem OrderInv.step (hs : OrderInv s) (hdata : DataInv c s) {act : Act T K} (hok : Serial s act)
    (h : step c s act = some s') : OrderInv s' := by
  cases act with
  | commit table =>
    cases h
    exact ⟨hs.one, hs.newer, hs.seen, hs.sorted⟩
  | signal who =>
    simp only [Snapshots.step] at h
    split at h
    · cases h
    · cases h
      exact ⟨hs.one, hs.newer, hs.seen, hs.sorted⟩
  | take who =>
    simp only [Snapshots.step] at h
    split at h
    · cases h
      have hread : ∀ w v rows, Function.update s.loop who .ready w = .read v rows →
          s.loop w = .read v rows := by
        intro w v rows h
        rw [Function.update_apply] at h
        split_ifs at h
        exact h
      exact ⟨fun w w' v v' rows rows' h h' =>
        hs.one w w' v v' rows rows' (hread _ _ _ h) (hread _ _ _ h'),
        fun w v rows h => hs.newer w v rows (hread _ _ _ h), hs.seen, hs.sorted⟩
    · cases h
  | read who =>
    simp only [Snapshots.step] at h
    split at h
    · rename_i rows _ _
      cases h
      have hread : ∀ w v rows',
          Function.update s.loop who (.read s.log.length rows) w = .read v rows' →
          w = who ∧ v = s.log.length := by
        intro w v rows' h
        rw [Function.update_apply] at h
        split_ifs at h with hw
        · cases h
          exact ⟨hw, rfl⟩
        · exact absurd h (hok w v rows' hw)
      refine ⟨fun w w' v v' r r' h h' => ?_, fun w v r h => ?_, hs.seen, hs.sorted⟩
      · exact (hread w v r h).1.trans (hread w' v' r' h').1.symm
      · rw [(hread w v r h).2]
        exact hdata.le
    · cases h
  | fail who =>
    simp only [Snapshots.step] at h
    split at h
    · cases h
      exact hs.settle who
    · cases h
      exact hs.settle who
    · cases h
  | swap who =>
    simp only [Snapshots.step] at h
    split at h
    · rename_i version rows hw
      cases h
      have hle := hs.newer who version rows hw
      refine ⟨(hs.settle who).one, fun w v r h => ?_, fun a ha => Nat.le_trans (hs.seen a ha) hle,
        hs.sorted⟩
      -- the refresh that swaps was the only one under way
      obtain ⟨hne, h⟩ := settle_read h
      exact absurd (hs.one w who v version r rows h hw) hne
    · cases h
  | get key =>
    cases h
    refine ⟨hs.one, hs.newer, fun a ha => ?_, List.pairwise_cons.mpr ⟨hs.seen, hs.sorted⟩⟩
    obtain rfl | ha := List.mem_cons.mp ha
    · exact Nat.le_refl _
    · exact hs.seen a ha

theorem dataInv_start (c : Cache T M K A) (table : T) : DataInv c (start c table) := by
  refine ⟨Nat.zero_le _, rfl, fun w v rows h => ?_, fun a ha => nomatch ha⟩
  cases w <;> cases h

theorem orderInv_start (c : Cache T M K A) (table : T) : OrderInv (start c table) := by
  refine ⟨fun w w' v v' rows rows' h => ?_, fun w v rows h => ?_, fun a ha => (nomatch ha),
    List.Pairwise.nil⟩
  · cases w <;> cases h
  · cases w <;> cases h

/-- In a run whose refreshes do not overlap the versions of the answers never go back, each answer
is what its version of the table says, and access that all versions from one on refuse is refused
after an answer of such a version. -/
theorem gets_never_go_back (c : Cache T M K A) (table : T) {acts : List (Act T K)}
    (hserial : Run.Along (step c) Serial (start c table) acts)
    (hrun : Run.run (step c) (start c table) acts = some s) :
    s.answers.Pairwise (fun later earlier => earlier.version ≤ later.version)
      ∧ (∀ a ∈ s.answers, a.answer = c.get (mapAt c s.log a.version) a.key)
      ∧ ∀ (access : A → Prop) (key : K) (v : ℕ),
        (∀ u, v ≤ u → u ≤ s.log.length → ¬ access (c.get (mapAt c s.log u) key)) →
        s.answers.Pairwise
          (fun later earlier => v ≤ earlier.version → later.key = key → ¬ access later.answer) := by
  have hstep : ∀ (s : State T M K A) act s', DataInv c s ∧ OrderInv s → Serial s act →
      step c s act = some s' → DataInv c s' ∧ OrderInv s' :=
    fun s act s' hs hok h => ⟨hs.1.step h, hs.2.step hs.1 hok h⟩
  obtain ⟨hdata, horder⟩ := Run.run_preserves hstep
    ⟨dataInv_start c table, orderInv_start c table⟩ hserial hrun
  refine ⟨horder.sorted, fun a ha => (hdata.answers a ha).2, fun access key v hgone => ?_⟩
  refine List.Pairwise.imp_of_mem (fun {a b} ha _ hle hv hkey => ?_) horder.sorted
  obtain ⟨hlen, hans⟩ := hdata.answers a ha
  rw [hans, hkey]
  exact hgone a.version (Nat.le_trans hv hle) hlen

end Inv

def oneEnv (teams : List String) : EnvTable where
  rows := [⟨"", "e", teams, [], [], [], [], [], [], [], [], "", .cr⟩]
  keyed := List.nodup_singleton _

def firstRefresh : List (Act EnvTable String) :=
  [.read .main, .swap .main, .get "e", .commit (oneEnv []), .signal .notify, .take .notify,
    .read .notify, .swap .notify, .get "e"]

theorem serial_firstRefresh :
    Run.Along (step (envstore "")) Serial (start (envstore "") (oneEnv ["t"])) firstRefresh := by
  refine Run.along_cons rfl (fun w v rows hw => ?_) (Run.along_cons rfl trivial
    (Run.along_cons rfl trivial (Run.along_cons rfl trivial (Run.along_cons rfl trivial
    (Run.along_cons rfl trivial (Run.along_cons rfl (fun w v rows hw => ?_)
    (Run.along_cons rfl trivial (Run.along_cons rfl trivial trivial))))))))
  all_goals
    cases w
    · first
        | exact absurd rfl hw
        | exact nofun
    · first
        | exact absurd rfl hw
        | exact nofun

theorem removed_access_stays_removed :
    ∃ s, Run.run (step (envstore "")) (start (envstore "") (oneEnv ["t"])) firstRefresh = some s
      ∧ s.answers.map (fun a => (a.version, a.answer.map (·.authorizedTeams)))
        = [(2, some []), (1, some ["t"])]
      ∧ s.answers.Pairwise (fun later earlier => earlier.version ≤ later.version)
      ∧ (∀ a ∈ s.answers, a.answer = (envstore "").get (mapAt (envstore "") s.log a.version) a.key)
      ∧ ∀ (access : Option EnvironmentRow → Prop) (key : String) (v : ℕ),
        (∀ u, v ≤ u → u ≤ s.log.length →
          ¬ access ((envstore "").get (mapAt (envstore "") s.log u) key)) →
        s.answers.Pairwise
          (fun later earlier => v ≤ earlier.version → later.key = key → ¬ access later.answer) := by
  obtain ⟨s, hrun, hans⟩ : ∃ s,
      Run.run (step (envstore "")) (start (envstore "") (oneEnv ["t"])) firstRefresh = some s
      ∧ s.answers.map (fun a => (a.version, a.answer.map (·.authorizedTeams)))
        = [(2, some []), (1, some ["t"])] := ⟨_, rfl, by decide⟩
  exact ⟨s, hrun, hans, gets_never_go_back (envstore "") (oneEnv ["t"]) serial_firstRefresh hrun⟩

/-- The ticker's refresh reads before the team is removed and swaps after the trigger's refresh: the
team that a lookup saw removed is back. -/
theorem removed_access_comes_back :
    (Run.run (step (envstore "")) (start (envstore "") (oneEnv ["t"]))
      [.read .main, .swap .main, .signal .main, .take .main, .read .main, .commit (oneEnv []),
        .signal .notify, .take .notify, .read .notify, .swap .notify, .get "e", .swap .main,
        .get "e"]).map
          (fun s => s.answers.map (fun a => (a.version, a.answer.map (·.authorizedTeams))))
      = some [(1, some ["t"]), (2, some [])] := by
  decide

section Policies

variable {ns : String}

def BIPRow.target (r : BIPRow) : TargetKind × String := (r.targetKind, r.targetName)

/-- What a lookup of a target is to say: the first of its policies by name if that one forwards the
identity, and nothing if that one opts out or there is none. -/
def Decides (ns : String) (rows : List BIPRow) (key : TargetKind × String) : Option BIPRow → Prop
  | some r => (r ∈ rows ∧ r.ns = ns ∧ r.target = key) ∧ r.forwardIdentityJWT = true ∧
      ∀ q ∈ rows, q.ns = ns → q.target = key → r.name ≤ q.name
  | none => ∀ q ∈ rows, q.ns = ns → q.target = key → ∃ r ∈ rows, r.ns = ns ∧ r.target = key ∧
      r.forwardIdentityJWT = false ∧ r.name ≤ q.name

theorem bipcache_build (rows : List BIPRow) (key : TargetKind × String) :
    (bipcache ns).build rows key = (listAllBIPs ns rows).filter (fun r => r.target = key) := by
  have hfold : ∀ (l : List BIPRow) (m : TargetKind × String → List BIPRow),
      l.foldl (fun m r => Function.update m r.target (m r.target ++ [r])) m key =
        m key ++ l.filter (fun r => r.target = key) := by
    intro l
    induction l with
    | nil => simp
    | cons r l ih =>
      intro m
      rw [List.foldl_cons, ih]
      by_cases hr : key = r.target
      · simp [hr]
      · simp [hr, Ne.symm hr]
  exact hfold _ _

theorem listAllBIPs_sorted (rows : List BIPRow) :
    (listAllBIPs ns rows).Pairwise (fun a b => a.name ≤ b.name) := by
  have hsorted := @List.pairwise_mergeSort BIPRow (fun a b => decide (a.name ≤ b.name))
    (fun a b c hab hbc => by simpa using le_trans (of_decide_eq_true hab) (of_decide_eq_true hbc))
    (fun a b => by simpa using le_total a.name b.name) (rows.filter (fun r => r.ns = ns))
  exact hsorted.imp of_decide_eq_true

theorem bipcache_decides (rows : List BIPRow) (key : TargetKind × String) :
    Decides ns rows key ((bipcache ns).get ((bipcache ns).build rows) key) := by
  have hmem : ∀ q, q ∈ (bipcache ns).build rows key ↔ q ∈ rows ∧ q.ns = ns ∧ q.target = key := by
    intro q
    simp [bipcache_build, listAllBIPs, and_assoc]
  have hsorted : ((bipcache ns).build rows key).Pairwise (fun a b => a.name ≤ b.name) := by
    rw [bipcache_build]
    exact (listAllBIPs_sorted rows).filter _
  have hget : ∀ m, (bipcache ns).get m key = (m key).head?.filter (·.forwardIdentityJWT) := by
    intro m
    rw [bipcache]
    dsimp only
    cases m key <;> rfl
  rw [hget]
  cases hl : (bipcache ns).build rows key with
  | nil =>
    intro q hq hns hkey
    have hin := (hmem q).mpr ⟨hq, hns, hkey⟩
    rw [hl] at hin
    cases hin
  | cons first rest =>
    rw [hl] at hmem hsorted
    have hfirst := (hmem first).mp List.mem_cons_self
    have hleast : ∀ q ∈ rows, q.ns = ns → q.target = key → first.name ≤ q.name := by
      intro q hq hns hkey
      obtain rfl | hin := List.mem_cons.mp ((hmem q).mpr ⟨hq, hns, hkey⟩)
      · exact le_rfl
      · exact List.rel_of_pairwise_cons hsorted hin
    rw [List.head?_cons, Option.filter_some]
    cases hf : first.forwardIdentityJWT with
    | true => exact ⟨hfirst, hf, hleast⟩
    | false =>
      exact fun q hq hns hkey =>
        ⟨first, hfirst.1, hfirst.2.1, hfirst.2.2, hf, hleast q hq hns hkey⟩

/-- However refreshes overlap, a lookup of a policy says nothing before the first refresh and
decides by one committed version of the table afterwards. -/
theorem policy_lookups_decide (table : List BIPRow) {acts : List (Act (List BIPRow) _)}
    {s : State (List BIPRow) _ _ _}
    (hrun : Run.run (step (bipcache ns)) (start (bipcache ns) table) acts = some s) :
    ∀ a ∈ s.answers, a.version = 0 ∧ a.answer = none ∨
      ∃ rows, s.log[a.version - 1]? = some rows ∧ Decides ns rows a.key a.answer := by
  have hdata := Run.run_preserves (fun _ _ _ hs _ h => DataInv.step hs h)
    (dataInv_start (bipcache ns) table) (Run.along_trivial acts _) hrun
  intro a ha
  obtain ⟨hlen, hans⟩ := hdata.answers a ha
  rw [hans]
  cases hv : a.version with
  | zero => exact .inl ⟨rfl, rfl⟩
  | succ v =>
    rw [hv] at hlen
    have hrows : s.log[v]? = some (s.log[v]) := List.getElem?_eq_getElem hlen
    refine .inr ⟨s.log[v], hrows, ?_⟩
    rw [mapAt, hrows]
    exact bipcache_decides _ _

def policy (name : String) (forward : Bool) : BIPRow := ⟨"", name, .mcpServer, "m", forward, "", ""⟩

/-- The ticker's refresh reads before an opt-out is committed and swaps after the trigger's. -/
def overlapping : List (Act (List BIPRow) (TargetKind × String)) :=
  [.get (.mcpServer, "m"), .read .main, .swap .main, .signal .main, .take .main, .read .main,
    .commit [policy "b" true, policy "a" false], .signal .notify, .take .notify, .read .notify,
    .swap .notify, .get (.mcpServer, "m"), .swap .main, .get (.mcpServer, "m")]

theorem overlapping_lookups_decide :
    ∃ s, Run.run (step (bipcache "")) (start (bipcache "") [policy "b" true]) overlapping = some s ∧
      s.answers.map (·.version) = [1, 2, 0] ∧
      ∀ a ∈ s.answers, a.version = 0 ∧ a.answer = none ∨
        ∃ rows, s.log[a.version - 1]? = some rows ∧ Decides "" rows a.key a.answer := by
  have hrun : Run.run (step (bipcache "")) (start (bipcache "") [policy "b" true]) overlapping =
    some _ := rfl
  exact ⟨_, hrun, rfl, policy_lookups_decide _ hrun⟩

end Policies

end AchProofs.Access.Snapshots
