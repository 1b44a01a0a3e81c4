import Mathlib

namespace AchProofs.Foundation.Links

/-- One part of a path. Empty parts and `.` are dropped when a path is split. -/
inductive Part (ν : Type)
  | up
  | name (n : ν)
  deriving DecidableEq, Repr

/-- A path as it is written, in a call or in a link. -/
structure Written (ν : Type) where
  absolute : Bool
  parts : List (Part ν)
  deriving DecidableEq, Repr

inductive Node (ν : Type)
  | dir
  | file
  | link (target : Written ν)
  deriving DecidableEq, Repr

/-- What lies at each place. A place is the list of names that leads to it from the top with no
link on the way; the top itself, the empty list, is a directory. -/
abbrev Tree (ν : Type) := List ν → Option (Node ν)

inductive Failure
  | notExist
  | notDir
  | tooManyLinks
  deriving DecidableEq, Repr

variable {ν : Type}

def Written.base (t : Written ν) (dir : List ν) : List ν := if t.absolute then [] else dir

def names (ns : List ν) : List (Part ν) := ns.map .name

/-- The place a path leads to when it is read without looking at the tree. -/
def lexical (dir : List ν) : List (Part ν) → List ν
  | [] => dir
  | .up :: rest => lexical dir.dropLast rest
  | .name n :: rest => lexical (dir ++ [n]) rest

/-- Whether a walk goes on past what is no link, given the parts that are left. -/
abbrev Enter (ν : Type) := Option (Node ν) → List (Part ν) → Option Failure

/-- Walks along the parts up to the first link, and hands what is then left to `follow`. -/
def scan (fs : Tree ν) (enter : Enter ν)
    (follow : List ν → List (Part ν) → Except Failure (List ν)) :
    List ν → List (Part ν) → Except Failure (List ν)
  | dir, [] => .ok dir
  | dir, .up :: rest => scan fs enter follow dir.dropLast rest
  | dir, .name n :: rest =>
    match fs (dir ++ [n]) with
    | some (.link t) => follow (t.base dir) (t.parts ++ rest)
    | node =>
      match enter node rest with
      | some e => .error e
      | none => scan fs enter follow (dir ++ [n]) rest

/-- A walk that replaces each link by what is written in it and follows so many of them. -/
def walk (fs : Tree ν) (enter : Enter ν) :
    ℕ → List ν → List (Part ν) → Except Failure (List ν)
  | 0 => scan fs enter (fun _ _ => .error .tooManyLinks)
  | hops + 1 => scan fs enter (walk fs enter hops)

def openEnter : Enter ν
  | some .dir, _ => none
  | _, [] => none
  | some _, _ :: _ => some .notDir
  | none, _ :: _ => some .notExist

def dirEnter : Enter ν
  | some .dir, _ => none
  | some _, _ => some .notDir
  | none, _ => some .notExist

/-- Reading a path as far as links lead: what is no link, or is not there, is taken as written. -/
def passEnter : Enter ν := fun _ _ => none

theorem eq_dir_of_dirEnter {node : Option (Node ν)} {rest : List (Part ν)}
    (h : dirEnter node rest = none) : node = some .dir := by
  rcases node with _ | _ | _ | _ <;> first | rfl | cases h

theorem dirEnter_of_openEnter {node : Option (Node ν)} {rest q : List (Part ν)} (hq : q ≠ [])
    (h : openEnter node (rest ++ q) = none) : dirEnter node rest = none := by
  obtain ⟨part, tail, htail⟩ :=
    List.exists_cons_of_ne_nil (List.append_ne_nil_of_right_ne_nil rest hq)
  rw [htail] at h
  rcases node with _ | _ | _ | _ <;> first | rfl | cases h

section Walk

variable {fs : Tree ν} {enter : Enter ν} {hops : ℕ} {dir loc : List ν} {rest : List (Part ν)}
  {n : ν}

@[simp] theorem walk_nil : walk fs enter hops dir [] = .ok dir := by
  cases hops <;> rfl

@[simp] theorem walk_up :
    walk fs enter hops dir (.up :: rest) = walk fs enter hops dir.dropLast rest := by
  cases hops <;> rfl

theorem walk_link {t : Written ν} (h : fs (dir ++ [n]) = some (.link t)) :
    walk fs enter (hops + 1) dir (.name n :: rest)
      = walk fs enter hops (t.base dir) (t.parts ++ rest) := by
  simp only [walk, scan, h]

theorem walk_link_zero {t : Written ν} (h : fs (dir ++ [n]) = some (.link t)) :
    walk fs enter 0 dir (.name n :: rest) = .error .tooManyLinks := by
  simp only [walk, scan, h]

theorem walk_pass (h : ∀ t, fs (dir ++ [n]) ≠ some (.link t))
    (he : enter (fs (dir ++ [n])) rest = none) :
    walk fs enter hops dir (.name n :: rest) = walk fs enter hops (dir ++ [n]) rest := by
  cases hops <;> (simp only [walk, scan]; split) <;> simp_all

theorem walk_stop (h : ∀ t, fs (dir ++ [n]) ≠ some (.link t)) {e : Failure}
    (he : enter (fs (dir ++ [n])) rest = some e) :
    walk fs enter hops dir (.name n :: rest) = .error e := by
  cases hops <;> (simp only [walk, scan]; split) <;> simp_all

theorem walk_name_ok (h : walk fs enter hops dir (.name n :: rest) = .ok loc) :
    (∃ t k, fs (dir ++ [n]) = some (.link t) ∧ hops = k + 1
      ∧ walk fs enter k (t.base dir) (t.parts ++ rest) = .ok loc)
    ∨ ((∀ t, fs (dir ++ [n]) ≠ some (.link t)) ∧ enter (fs (dir ++ [n])) rest = none
      ∧ walk fs enter hops (dir ++ [n]) rest = .ok loc) := by
  by_cases hl : ∃ t, fs (dir ++ [n]) = some (.link t)
  · obtain ⟨t, ht⟩ := hl
    cases hops with
    | zero => rw [walk_link_zero ht] at h; cases h
    | succ k => exact .inl ⟨t, k, ht, rfl, walk_link ht ▸ h⟩
  · have hl' : ∀ t, fs (dir ++ [n]) ≠ some (.link t) := fun t ht => hl ⟨t, ht⟩
    cases he : enter (fs (dir ++ [n])) rest with
    | some e => rw [walk_stop hl' he] at h; cases h
    | none => exact .inr ⟨hl', rfl, walk_pass hl' he ▸ h⟩

end Walk

variable {parts : List (Part ν)}

theorem walk_ok_induction {fs : Tree ν} {enter : Enter ν} {loc : List ν}
    {motive : ℕ → List ν → List (Part ν) → Prop} (nil : ∀ hops, motive hops loc [])
    (up : ∀ hops dir rest, walk fs enter hops dir.dropLast rest = .ok loc →
      motive hops dir.dropLast rest → motive hops dir (.up :: rest))
    (link : ∀ hops dir n t rest, fs (dir ++ [n]) = some (.link t) →
      walk fs enter hops (t.base dir) (t.parts ++ rest) = .ok loc →
      motive hops (t.base dir) (t.parts ++ rest) → motive (hops + 1) dir (.name n :: rest))
    (pass : ∀ hops dir n rest, (∀ t, fs (dir ++ [n]) ≠ some (.link t)) →
      enter (fs (dir ++ [n])) rest = none → walk fs enter hops (dir ++ [n]) rest = .ok loc →
      motive hops (dir ++ [n]) rest → motive hops dir (.name n :: rest))
    {hops : ℕ} {dir : List ν} (h : walk fs enter hops dir parts = .ok loc) :
    motive hops dir parts := by
  -- links left first, then the parts: a link puts more parts in place but costs a hop
  induction hops using Nat.strong_induction_on generalizing dir parts with
  | _ hops ihh =>
    induction parts generalizing dir with
    | nil =>
      rw [walk_nil] at h
      cases h
      exact nil hops
    | cons part rest ih =>
      cases part with
      | up =>
        rw [walk_up] at h
        exact up _ _ _ h (ih h)
      | name n =>
        obtain ⟨t, k, ht, rfl, hr⟩ | ⟨hl, he, hr⟩ := walk_name_ok h
        · exact link _ _ _ _ _ ht hr (ihh k (Nat.lt_succ_self k) hr)
        · exact pass _ _ _ _ hl he hr (ih hr)

theorem walk_mono {fs : Tree ν} {enter enter' : Enter ν}
    (hpass : ∀ node rest, enter node rest = none → enter' node rest = none) {hops hops' : ℕ}
    {dir loc : List ν} (hle : hops ≤ hops') (h : walk fs enter hops dir parts = .ok loc) :
    walk fs enter' hops' dir parts = .ok loc := by
  refine walk_ok_induction (motive := fun hops dir parts => ∀ hops', hops ≤ hops' →
      walk fs enter' hops' dir parts = .ok loc) ?nil ?up ?link ?pass h hops' hle
  case nil => exact fun _ _ _ => walk_nil
  case up => exact fun _ _ _ _ ih hops' hle => walk_up.trans (ih hops' hle)
  case link =>
    intro hops dir n t rest ht _ ih hops' hle
    obtain ⟨k, rfl⟩ : ∃ k, hops' = k + 1 := ⟨hops' - 1, by omega⟩
    exact (walk_link ht).trans (ih k (by omega))
  case pass =>
    exact fun _ _ _ _ hl he _ ih hops' hle => (walk_pass hl (hpass _ _ he)).trans (ih hops' hle)

theorem walk_of_same_links {fs fs' : Tree ν} {enter : Enter ν}
    (hlinks : ∀ p t, fs p = some (.link t) ↔ fs' p = some (.link t)) {hops : ℕ} {dir loc : List ν}
    (h : walk fs enter hops dir parts = .ok loc) : walk fs' passEnter hops dir parts = .ok loc := by
  refine walk_ok_induction (motive := fun hops dir parts =>
    walk fs' passEnter hops dir parts = .ok loc) ?nil ?up ?link ?pass h
  case nil => exact fun _ => walk_nil
  case up => exact fun _ _ _ _ ih => walk_up.trans ih
  case link => exact fun _ _ _ _ _ ht _ ih => (walk_link ((hlinks _ _).mp ht)).trans ih
  case pass =>
    exact fun _ _ _ _ hl _ _ ih => (walk_pass (fun t ht => hl t ((hlinks _ _).mpr ht)) rfl).trans ih

/-- A walk along two paths one after the other first walks the first one, where it treats each part
as one that is not the last. -/
theorem walk_append_ok {fs : Tree ν} {enter enter' : Enter ν} {q : List (Part ν)}
    (hpass : ∀ node rest, enter node (rest ++ q) = none → enter' node rest = none)
    {hops : ℕ} {dir loc : List ν} {p : List (Part ν)}
    (h : walk fs enter hops dir (p ++ q) = .ok loc) :
    ∃ k mid, k ≤ hops ∧ walk fs enter' hops dir p = .ok mid
      ∧ walk fs enter k mid q = .ok loc := by
  refine walk_ok_induction (motive := fun hops dir parts => ∀ p, p ++ q = parts →
    ∃ k mid, k ≤ hops ∧ walk fs enter' hops dir p = .ok mid ∧ walk fs enter k mid q = .ok loc)
    ?nil ?up ?link ?pass h p rfl
  case nil =>
    intro hops p hpq
    obtain ⟨rfl, rfl⟩ := List.append_eq_nil_iff.mp hpq
    exact ⟨hops, loc, le_rfl, walk_nil, walk_nil⟩
  case up =>
    intro hops dir rest hr ih p hpq
    cases p with
    | nil => exact ⟨hops, dir, le_rfl, walk_nil, by rw [← hr, ← walk_up, ← hpq, List.nil_append]⟩
    | cons part p =>
      obtain ⟨rfl, rfl⟩ := List.cons.inj hpq
      obtain ⟨k, mid, hk, hp, hq⟩ := ih p rfl
      exact ⟨k, mid, hk, walk_up.trans hp, hq⟩
  case link =>
    intro hops dir n t rest ht hr ih p hpq
    cases p with
    | nil =>
      exact ⟨hops + 1, dir, le_rfl, walk_nil, by rw [← hr, ← walk_link ht, ← hpq, List.nil_append]⟩
    | cons part p =>
      obtain ⟨rfl, rfl⟩ := List.cons.inj hpq
      obtain ⟨k, mid, hk, hp, hq⟩ := ih (t.parts ++ p) (List.append_assoc _ _ _)
      exact ⟨k, mid, by omega, (walk_link ht).trans hp, hq⟩
  case pass =>
    intro hops dir n rest hl he hr ih p hpq
    cases p with
    | nil =>
      exact ⟨hops, dir, le_rfl, walk_nil, by rw [← hr, ← walk_pass hl he, ← hpq, List.nil_append]⟩
    | cons part p =>
      obtain ⟨rfl, rfl⟩ := List.cons.inj hpq
      obtain ⟨k, mid, hk, hp, hq⟩ := ih p rfl
      exact ⟨k, mid, hk, (walk_pass hl (hpass _ _ he)).trans hp, hq⟩

section Lexical

variable {dir : List ν}

@[simp] theorem lexical_nil : lexical dir [] = dir := rfl

@[simp] theorem lexical_up {rest : List (Part ν)} :
    lexical dir (.up :: rest) = lexical dir.dropLast rest := rfl

@[simp] theorem lexical_name {n : ν} {rest : List (Part ν)} :
    lexical dir (.name n :: rest) = lexical (dir ++ [n]) rest := rfl

theorem lexical_append (p q : List (Part ν)) :
    lexical dir (p ++ q) = lexical (lexical dir p) q := by
  induction p generalizing dir with
  | nil => rfl
  | cons part p ih => cases part <;> exact ih

@[simp] theorem lexical_names (ns : List ν) : lexical dir (names ns) = dir ++ ns := by
  induction ns generalizing dir with
  | nil => simp [names]
  | cons n ns ih =>
    show lexical (dir ++ [n]) (names ns) = _
    rw [ih, List.append_assoc, List.singleton_append]

@[simp] theorem lexical_ups (k : ℕ) :
    lexical dir (List.replicate k .up) = dir.take (dir.length - k) := by
  induction k generalizing dir with
  | zero => simp
  | succ k ih =>
    rw [List.replicate_succ, lexical_up, ih, List.length_dropLast, List.dropLast_eq_take,
      List.take_take]
    congr 1
    omega

/-- A relative path as it is cleaned: some steps up and then some names down. -/
def normalStep : ℕ × List ν → Part ν → ℕ × List ν
  | (k, ns), .name n => (k, ns ++ [n])
  | (k, []), .up => (k + 1, [])
  | (k, n :: ns), .up => (k, (n :: ns).dropLast)

def normal (p : List (Part ν)) : ℕ × List ν := p.foldl normalStep (0, [])

theorem normal_concat (p : List (Part ν)) (part : Part ν) :
    normal (p ++ [part]) = normalStep (normal p) part := by
  rw [normal, List.foldl_append]
  rfl

theorem normal_append_names (p : List (Part ν)) (ns : List ν) :
    normal (p ++ names ns) = ((normal p).1, (normal p).2 ++ ns) := by
  induction ns using List.reverseRecOn with
  | nil => simp [names]
  | append_singleton ns n ih =>
    have hsplit : p ++ names (ns ++ [n]) = p ++ names ns ++ [.name n] := by simp [names]
    rw [hsplit, normal_concat, ih, ← List.append_assoc]
    rfl

theorem normal_names (ns : List ν) : normal (names ns) = (0, ns) := normal_append_names [] ns

theorem lexical_eq_normal (p : List (Part ν)) :
    lexical dir p = dir.take (dir.length - (normal p).1) ++ (normal p).2 := by
  -- from the right: a last step up takes the last name away, or goes one further up
  induction p using List.reverseRecOn with
  | nil => simp [normal]
  | append_singleton p part ih =>
    rw [lexical_append, ih, normal_concat]
    obtain ⟨k, ns⟩ := normal p
    cases part with
    | name n => exact List.append_assoc _ ns [n]
    | up =>
      cases ns with
      | nil =>
        show (dir.take (dir.length - k) ++ []).dropLast = dir.take (dir.length - (k + 1)) ++ []
        rw [List.append_nil, List.append_nil, List.dropLast_eq_take, List.take_take,
          List.length_take]
        congr 1
        omega
      | cons n ns => exact List.dropLast_append_of_ne_nil (List.cons_ne_nil n ns)

theorem normal_le (p : List (Part ν)) :
    (normal p).1 ≤ p.length ∧ ∀ n ∈ (normal p).2, .name n ∈ p := by
  induction p using List.reverseRecOn with
  | nil => exact ⟨le_rfl, by simp [normal]⟩
  | append_singleton p part ih =>
    rw [normal_concat, List.length_append]
    revert ih
    obtain ⟨k, ns⟩ := normal p
    rintro ⟨hk, hns⟩
    have hns' : ∀ n ∈ ns, .name n ∈ p ++ [part] := fun n hn => List.mem_append_left _ (hns n hn)
    cases part with
    | name n =>
      refine ⟨Nat.le_add_right_of_le hk, fun m hm => ?_⟩
      obtain hm | hm := List.mem_append.mp hm
      · exact hns' m hm
      · rw [List.mem_singleton.mp hm]
        simp
    | up =>
      cases ns with
      | nil => exact ⟨Nat.add_le_add_right hk 1, by simp [normalStep]⟩
      | cons n ns =>
        exact ⟨Nat.le_add_right_of_le hk, fun m hm => hns' m (List.mem_of_mem_dropLast hm)⟩

end Lexical

def Plain (p : List (Part ν)) : Prop := ∃ k ns, p = List.replicate k .up ++ names ns

section Walk

variable {fs : Tree ν} {enter : Enter ν} {hops : ℕ}

theorem walk_ups {dir : List ν} (k : ℕ) (rest : List (Part ν)) :
    walk fs enter hops dir (List.replicate k .up ++ rest)
      = walk fs enter hops (dir.take (dir.length - k)) rest := by
  induction k generalizing dir with
  | zero => simp
  | succ k ih =>
    rw [List.replicate_succ, List.cons_append, walk_up, ih, List.length_dropLast,
      List.dropLast_eq_take, List.take_take]
    congr 2
    omega

theorem walk_plain_top {p : List (Part ν)} (h : Plain p) :
    walk fs enter hops [] p = walk fs enter hops [] (names (lexical [] p)) := by
  obtain ⟨k, ns, rfl⟩ := h
  rw [walk_ups, lexical_append, lexical_ups, lexical_names]
  simp

variable (hdir : ∀ rest, enter (some .dir) rest = none)

include hdir

theorem walk_dir {dir : List ν} {n : ν} {rest : List (Part ν)} (h : fs (dir ++ [n]) = some .dir) :
    walk fs enter hops dir (.name n :: rest) = walk fs enter hops (dir ++ [n]) rest := by
  refine walk_pass (fun t ht => ?_) (h ▸ hdir rest)
  rw [h] at ht
  cases ht

theorem walk_names {dir ns : List ν} (h : ∀ m, m ≠ [] → m <+: ns → fs (dir ++ m) = some .dir)
    (rest : List (Part ν)) :
    walk fs enter hops dir (names ns ++ rest) = walk fs enter hops (dir ++ ns) rest := by
  induction ns generalizing dir with
  | nil => rw [List.append_nil]; rfl
  | cons n ns ih =>
    have hn : fs (dir ++ [n]) = some .dir := h [n] (by simp) (by simp)
    show walk fs enter hops dir (.name n :: (names ns ++ rest)) = _
    rw [walk_dir hdir hn, ih, List.append_assoc, List.singleton_append]
    intro m hm hpre
    rw [List.append_assoc, List.singleton_append]
    exact h (n :: m) (by simp) (List.cons_prefix_cons.mpr ⟨rfl, hpre⟩)

theorem walk_names_ok {dir ns : List ν} (h : ∀ m, m ≠ [] → m <+: ns → fs (dir ++ m) = some .dir) :
    walk fs enter hops dir (names ns) = .ok (dir ++ ns) := by
  rw [← List.append_nil (names ns), walk_names hdir h, walk_nil]

end Walk

/-- The links below a place go up from where they stand only at their start, and not above it. -/
def Confined (root : List ν) (fs : Tree ν) : Prop :=
  ∀ q n t, fs (root ++ q ++ [n]) = some (.link t) →
    t.absolute = false ∧ ∃ k ns, t.parts = List.replicate k .up ++ names ns ∧ k ≤ q.length

theorem names_append (ns ms : List ν) : names (ns ++ ms) = names ns ++ names ms := List.map_append

theorem walk_confined {root : List ν} {fs : Tree ν} (hc : Confined root fs) {enter : Enter ν}
    {hops k : ℕ} {q ns loc : List ν} (hk : k ≤ q.length)
    (h : walk fs enter hops (root ++ q) (List.replicate k .up ++ names ns) = .ok loc) :
    root <+: loc := by
  refine walk_ok_induction (motive := fun _ dir parts => ∀ q k ns, dir = root ++ q →
    parts = List.replicate k .up ++ names ns → k ≤ q.length → root <+: loc)
    ?nil ?up ?link ?pass h q k ns rfl rfl hk
  case nil => exact fun _ q _ _ hq _ _ => ⟨q, hq.symm⟩
  case up =>
    intro hops dir rest _ ih q k ns hq hp hk
    cases k with
    | zero => cases ns <;> cases hp
    | succ k =>
      have hne : q ≠ [] := List.ne_nil_of_length_pos (by omega)
      refine ih q.dropLast k ns ?_ (List.cons.inj hp).2 (by rw [List.length_dropLast]; omega)
      rw [hq, List.dropLast_append_of_ne_nil hne]
  case link =>
    intro hops dir n t rest ht _ ih q k ns hq hp hk
    cases k with
    | succ k => cases hp
    | zero =>
      cases ns with
      | nil => cases hp
      | cons m ns =>
        obtain ⟨hn, rfl⟩ := List.cons.inj hp
        obtain ⟨habs, j, ms, hparts, hj⟩ := hc q n t (hq ▸ ht)
        refine ih q j (ms ++ ns) ?_ ?_ hj
        · rw [Written.base, habs, hq]
          rfl
        · rw [hparts, names_append, List.append_assoc]
          rfl
  case pass =>
    intro hops dir n rest _ _ _ ih q k ns hq hp hk
    cases k with
    | succ k => cases hp
    | zero =>
      cases ns with
      | nil => cases hp
      | cons m ns =>
        obtain ⟨hn, rfl⟩ := List.cons.inj hp
        exact ih (q ++ [n]) 0 ns (by rw [hq, List.append_assoc]) rfl (Nat.zero_le _)

end AchProofs.Foundation.Links

namespace AchProofs

export Foundation.Links (Part Tree)

end AchProofs
