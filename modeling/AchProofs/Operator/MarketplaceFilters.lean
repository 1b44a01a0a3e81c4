import AchProofs.Foundation.Regex
import AchProofs.Foundation.Run

namespace AchProofs.Operator.MarketplaceFilters

open Foundation.Regex Foundation.Run

section Syntax

/-- A part of a bracket: the letters of some ranges, or all others. -/
structure ClassItem where
  negated : Bool
  ranges : List (Char × Char)
  deriving DecidableEq, Repr

inductive Atom where
  | literal (c : Char)
  | anyNotNL
  | charClass (negated : Bool) (items : List ClassItem)
  deriving DecidableEq, Repr

def ClassItem.sat (x : ClassItem) (c : Char) : Bool :=
  x.negated != x.ranges.any (fun r => r.1 ≤ c && c ≤ r.2)

def Atom.sat : Atom → Char → Bool
  | literal d, c => c = d
  | anyNotNL, c => c ≠ '\n'
  | charClass negated items, c => negated != items.any (fun x => x.sat c)

inductive Token where
  | atom (a : Atom)
  | beginText
  | endText
  | bar
  | leftParen
  | rightParen
  | rep (low : ℕ) (high : Option ℕ)
  deriving DecidableEq, Repr

def perlGroup (c : Char) : Option ClassItem :=
  let digit := [('0', '9')]
  let space := [('\t', '\n'), (Char.ofNat 12, '\r'), (' ', ' ')]
  let word := [('0', '9'), ('A', 'Z'), ('_', '_'), ('a', 'z')]
  if c = 'd' then some ⟨false, digit⟩
  else if c = 'D' then some ⟨true, digit⟩
  else if c = 's' then some ⟨false, space⟩
  else if c = 'S' then some ⟨true, space⟩
  else if c = 'w' then some ⟨false, word⟩
  else if c = 'W' then some ⟨true, word⟩
  else none

/-- The letter behind a backslash. Codes and Unicode classes are left out. -/
def parseEscape (c : Char) : Option Char :=
  if c = 'a' then some (Char.ofNat 7)
  else if c = 'f' then some (Char.ofNat 12)
  else if c = 'n' then some '\n'
  else if c = 'r' then some '\r'
  else if c = 't' then some '\t'
  else if c = 'v' then some (Char.ofNat 11)
  else if c.toNat < 128 && !c.isAlphanum then some c
  else none

def parseClassChar : List Char → Option (Char × List Char)
  | [] => none
  | c :: s =>
    if c = '\\' then
      match s with
      | [] => none
      | d :: rest => (parseEscape d).map (fun x => (x, rest))
    else some (c, s)

def parseClassRange (s : List Char) : Option (ClassItem × List Char) :=
  (parseClassChar s).bind fun lo =>
    match lo.2 with
    | '-' :: c :: rest =>
      if c = ']' then some (⟨false, [(lo.1, lo.1)]⟩, lo.2)
      else (parseClassChar (c :: rest)).bind fun hi =>
        if hi.1 < lo.1 then none else some (⟨false, [(lo.1, hi.1)]⟩, hi.2)
    | _ => some (⟨false, [(lo.1, lo.1)]⟩, lo.2)

/-- One part of a bracket. Named classes are left out. -/
def parseClassItem : List Char → Option (ClassItem × List Char)
  | '[' :: ':' :: _ => none
  | '\\' :: c :: s =>
    match perlGroup c with
    | some x => some (x, s)
    | none => parseClassRange ('\\' :: c :: s)
  | s => parseClassRange s

def parseClassItems : ℕ → Bool → List Char → Option (List ClassItem × List Char)
  | 0, _, _ => none
  | n + 1, first, s =>
    match s with
    | [] => none
    | c :: rest =>
      if c = ']' && !first then some ([], rest)
      else (parseClassItem s).bind fun x =>
        (parseClassItems n false x.2).map fun y => (x.1 :: y.1, y.2)

def parseClass (s : List Char) : Option (Token × List Char) :=
  let negated := s.head? = some '^'
  let body := if negated then s.tail else s
  (parseClassItems (body.length + 1) true body).map fun x => (.atom (.charClass negated x.1), x.2)

def parseInt (s : List Char) : Option (ℕ × List Char) :=
  let digits := s.takeWhile Char.isDigit
  if digits = [] ∨ (1 < digits.length ∧ digits.head? = some '0') then none
  else some (digits.foldl (fun n c => 10 * n + (c.toNat - '0'.toNat)) 0, s.dropWhile Char.isDigit)

def parseRepeat (s : List Char) : Option (ℕ × Option ℕ × List Char) :=
  (parseInt s).bind fun low =>
    match low.2 with
    | '}' :: rest => some (low.1, some low.1, rest)
    | ',' :: '}' :: rest => some (low.1, none, rest)
    | ',' :: rest => (parseInt rest).bind fun high =>
      match high.2 with
      | '}' :: rest => some (low.1, some high.1, rest)
      | _ => none
    | _ => none

/-- A question mark behind a repetition only says which match is preferred. -/
def skipLazy : List Char → List Char
  | '?' :: s => s
  | s => s

def parseBackslash : List Char → Option (Token × List Char)
  | [] => none
  | c :: s =>
    if c = 'A' then some (.beginText, s)
    else if c = 'z' then some (.endText, s)
    else match perlGroup c with
      | some x => some (.atom (.charClass false [x]), s)
      | none => (parseEscape c).map fun d => (.atom (.literal d), s)

/-- The groups that take no flags and no name. -/
def parseLeftParen : List Char → Option (Token × List Char)
  | '?' :: ':' :: s => some (.leftParen, s)
  | '?' :: _ => none
  | s => some (.leftParen, s)

def parseBrace (s : List Char) : Option (Token × List Char) :=
  match parseRepeat s with
  | none => some (.atom (.literal '{'), s)
  | some (low, high, rest) =>
    if low ≤ 1000 ∧ high.all (fun m => m ≤ 1000 && low ≤ m) then some (.rep low high, skipLazy rest)
    else none

def nextToken (c : Char) (s : List Char) : Option (Token × List Char) :=
  if c = '^' then some (.beginText, s)
  else if c = '$' then some (.endText, s)
  else if c = '.' then some (.atom .anyNotNL, s)
  else if c = '|' then some (.bar, s)
  else if c = '(' then parseLeftParen s
  else if c = ')' then some (.rightParen, s)
  else if c = '*' then some (.rep 0 none, skipLazy s)
  else if c = '+' then some (.rep 1 none, skipLazy s)
  else if c = '?' then some (.rep 0 (some 1), skipLazy s)
  else if c = '{' then parseBrace s
  else if c = '[' then parseClass s
  else if c = '\\' then parseBackslash s
  else some (.atom (.literal c), s)

def tokens : ℕ → List Char → Option (List Token)
  | _, [] => some []
  | 0, _ :: _ => none
  | n + 1, c :: s => (nextToken c s).bind fun x => (tokens n x.2).map (x.1 :: ·)

/-- What is read of a group: the alternatives that are done, and the parts of the one at hand. -/
structure Frame where
  done : List (Re Atom)
  items : List (Re Atom)
  deriving DecidableEq, Repr

def concat (items : List (Re Atom)) : Re Atom := items.foldr .seq .empty

def alternate : List (Re Atom) → Re Atom
  | [] => .empty
  | [r] => r
  | r :: rs => .alt r (alternate rs)

def Frame.alternatives (f : Frame) : List (Re Atom) := f.done ++ [concat f.items]

def Frame.push (f : Frame) (r : Re Atom) : Frame := { f with items := f.items ++ [r] }

/-- The open groups, the innermost first, and whether the last token was a repetition. -/
structure Parser where
  frames : List Frame
  repeated : Bool
  deriving DecidableEq, Repr

def Parser.step (p : Parser) (t : Token) : Option Parser :=
  match p.frames, t with
  | [], _ => none
  | f :: fs, .atom a => some ⟨f.push (.atom a) :: fs, false⟩
  | f :: fs, .beginText => some ⟨f.push .start :: fs, false⟩
  | f :: fs, .endText => some ⟨f.push .finish :: fs, false⟩
  | f :: fs, .bar => some ⟨⟨f.alternatives, []⟩ :: fs, false⟩
  | f :: fs, .leftParen => some ⟨⟨[], []⟩ :: f :: fs, false⟩
  | [_], .rightParen => none
  | f :: g :: fs, .rightParen => some ⟨g.push (alternate f.alternatives) :: fs, false⟩
  | f :: fs, .rep low high =>
    if p.repeated then none
    else f.items.getLast?.map fun r =>
      ⟨{ f with items := f.items.dropLast ++ [.rep r low high] } :: fs, true⟩

def parse (pattern : List Char) : Option (List (Re Atom)) :=
  (tokens pattern.length pattern).bind fun ts =>
    (run Parser.step ⟨[⟨[], []⟩], false⟩ ts).bind fun p =>
      match p.frames with
      | [f] => some f.alternatives
      | _ => none

/-- `regexp.Compile` also accepts flag and named groups, `\b`, `\Q`, `\p` and classes such as
`[[:alpha:]]`, which are refused here. -/
def compile (pattern : String) : Option (Re Atom) := (parse pattern.toList).map alternate

end Syntax

section Filters

def compileAll : List String → Except String (List (Re Atom))
  | [] => .ok []
  | p :: ps =>
    match compile ("^" ++ p) with
    | none => .error p
    | some compiled => (compileAll ps).map (compiled :: ·)

/-- Without a pattern there is no filter. An error names the pattern. -/
def compileAnchored (patterns : List String) : Except String (Option (List (Re Atom))) :=
  if patterns = [] then .ok none else (compileAll patterns).map some

def matchAny (res : List (Re Atom)) (s : String) : Bool := res.any (matchString Atom.sat s.toList)

variable {P : Type} (name : P → String)

def applyFilters (plugins : List P) (included excluded : Option (List (Re Atom))) : List P × Bool :=
  let stage1 := match included with
    | none => (plugins, true)
    | some res => (plugins.filter (fun p => matchAny res (name p)),
        plugins.any (fun p => matchAny res (name p)))
  match excluded with
  | none => stage1
  | some res => (stage1.1.filter (fun p => !matchAny res (name p)), stage1.2)

end Filters

section Fuel

variable {α β : Type} {rest : α → List Char} {n : ℕ}

/-- What a reader leaves is shorter than `n`. -/
def Under (rest : α → List Char) (n : ℕ) (o : Option α) : Prop := ∀ x ∈ o, (rest x).length < n

theorem under_none : Under rest n none := fun _ hx => absurd hx (Option.not_mem_none _)

theorem under_some {x : α} (h : (rest x).length < n) : Under rest n (some x) := by
  intro y hy
  obtain rfl := Option.mem_some_iff.mp hy
  exact h

theorem Under.ite {c : Prop} [Decidable c] {a b : Option α} (ha : Under rest n a)
    (hb : Under rest n b) : Under rest n (if c then a else b) := by
  split_ifs
  · exact ha
  · exact hb

theorem Under.bind {o : Option β} {f : β → Option α} (hf : ∀ x ∈ o, Under rest n (f x)) :
    Under rest n (o.bind f) := by
  cases o with
  | none => exact under_none
  | some x => exact hf x rfl

theorem Under.map {o : Option β} {f : β → α} (hf : ∀ x ∈ o, (rest (f x)).length < n) :
    Under rest n (o.map f) := by
  rw [Option.map_eq_bind]
  exact .bind fun x hx => under_some (hf x hx)

theorem parseClassChar_under (s : List Char) : Under Prod.snd s.length (parseClassChar s) := by
  cases s with
  | nil => exact under_none
  | cons c s =>
    refine .ite ?_ (under_some (Nat.lt_succ_self _))
    cases s with
    | nil => exact under_none
    | cons d s => exact .map fun _ _ => Nat.lt_succ_of_lt (Nat.lt_succ_self _)

theorem parseClassRange_under (s : List Char) : Under Prod.snd s.length (parseClassRange s) := by
  refine .bind fun lo hlo => ?_
  have hlt := parseClassChar_under s lo hlo
  split
  · rename_i c s' heq
    refine .ite (under_some hlt) (.bind fun hi hhi => .ite under_none (under_some ?_))
    have hlt' := parseClassChar_under _ hi hhi
    rw [heq] at hlt
    exact Nat.lt_trans (Nat.lt_succ_of_lt hlt') hlt
  · exact under_some hlt

theorem parseClassItem_under (s : List Char) : Under Prod.snd s.length (parseClassItem s) := by
  rw [parseClassItem.eq_def]
  split
  · exact under_none
  · rename_i c s'
    cases perlGroup c with
    | none => exact parseClassRange_under _
    | some x => exact under_some (Nat.lt_succ_of_lt (Nat.lt_succ_self _))
  · exact parseClassRange_under _

theorem parseClassItems_under (first : Bool) (s : List Char) :
    Under Prod.snd s.length (parseClassItems n first s) := by
  induction n generalizing first s with
  | zero => exact under_none
  | succ n ih =>
    cases s with
    | nil => exact under_none
    | cons c s =>
      refine .ite (under_some (Nat.lt_succ_self _)) (.bind fun x hx => .map fun y hy => ?_)
      exact Nat.lt_trans (ih false x.2 y hy) (parseClassItem_under _ x hx)

theorem parseClassItems_fuel {m : ℕ} {first : Bool} {s : List Char} (hn : s.length < n)
    (hm : s.length < m) : parseClassItems n first s = parseClassItems m first s := by
  induction n generalizing m first s with
  | zero => exact absurd hn (Nat.not_lt_zero _)
  | succ n ih =>
    cases m with
    | zero => exact absurd hm (Nat.not_lt_zero _)
    | succ m =>
      cases s with
      | nil => rfl
      | cons c s =>
        rw [parseClassItems, parseClassItems]
        refine ite_congr rfl (fun _ => rfl) fun _ => Option.bind_congr fun x hx => ?_
        have hlt := parseClassItem_under _ x hx
        rw [ih (m := m) (by omega) (by omega)]

theorem skipLazy_length (s : List Char) : (skipLazy s).length ≤ s.length := by
  rw [skipLazy.eq_def]
  split
  · exact Nat.le_succ _
  · exact Nat.le_refl _

theorem parseInt_under (s : List Char) : Under Prod.snd (s.length + 1) (parseInt s) :=
  .ite under_none (under_some (Nat.lt_succ_of_le (List.dropWhile_suffix _).length_le))

theorem parseRepeat_under (s : List Char) :
    Under (fun x => x.2.2) (s.length + 1) (parseRepeat s) := by
  refine .bind fun low hlow => ?_
  have hlt := parseInt_under s low hlow
  split
  all_goals first | exact under_none | (rename_i heq; rw [heq] at hlt)
  · exact under_some (Nat.lt_of_succ_lt hlt)
  · exact under_some (Nat.lt_of_succ_lt (Nat.lt_of_succ_lt hlt))
  · refine .bind fun high hhigh => ?_
    have hlt' := parseInt_under _ high hhigh
    split
    · rename_i heq'
      rw [heq'] at hlt'
      exact under_some (Nat.lt_trans (Nat.lt_of_succ_lt hlt') hlt)
    · exact under_none

theorem parseLeftParen_under (s : List Char) : Under Prod.snd (s.length + 1)
    (parseLeftParen s) := by
  rw [parseLeftParen.eq_def]
  split
  · exact under_some (by simp only [List.length_cons]; omega)
  · exact under_none
  · exact under_some (Nat.lt_succ_self _)

theorem parseBrace_under (s : List Char) : Under Prod.snd (s.length + 1) (parseBrace s) := by
  rw [parseBrace]
  cases hr : parseRepeat s with
  | none => exact under_some (Nat.lt_succ_self _)
  | some x =>
    exact .ite (under_some (Nat.lt_of_le_of_lt (skipLazy_length _) (parseRepeat_under s x hr)))
      under_none

theorem parseClass_under (s : List Char) : Under Prod.snd (s.length + 1) (parseClass s) := by
  refine .map fun x hx => Nat.lt_of_lt_of_le (parseClassItems_under _ _ x hx) ?_
  split_ifs
  · rw [List.length_tail]
    omega
  · exact Nat.le_succ _

theorem parseBackslash_under (s : List Char) :
    Under Prod.snd (s.length + 1) (parseBackslash s) := by
  cases s with
  | nil => exact under_none
  | cons d s =>
    have hlt : s.length < (d :: s).length + 1 := Nat.lt_succ_of_lt (Nat.lt_succ_self _)
    refine .ite (under_some hlt) (.ite (under_some hlt) ?_)
    cases perlGroup d with
    | none => exact .map fun _ _ => hlt
    | some x => exact under_some hlt

theorem nextToken_under (c : Char) (s : List Char) :
    Under Prod.snd (s.length + 1) (nextToken c s) := by
  have hhere : ∀ t : Token, Under Prod.snd (s.length + 1) (some (t, s)) :=
    fun t => under_some (Nat.lt_succ_self _)
  have hlazy : ∀ t : Token, Under Prod.snd (s.length + 1) (some (t, skipLazy s)) :=
    fun t => under_some (Nat.lt_succ_of_le (skipLazy_length s))
  exact .ite (hhere _)
    (.ite (hhere _) (.ite (hhere _) (.ite (hhere _) (.ite (parseLeftParen_under s)
    (.ite (hhere _) (.ite (hlazy _) (.ite (hlazy _) (.ite (hlazy _) (.ite (parseBrace_under s)
      (.ite (parseClass_under s) (.ite (parseBackslash_under s) (hhere _))))))))))))

theorem tokens_fuel {m : ℕ} {s : List Char} (hn : s.length ≤ n) (hm : s.length ≤ m) :
    tokens n s = tokens m s := by
  induction n generalizing m s with
  | zero =>
    obtain rfl := List.length_eq_zero_iff.mp (Nat.le_zero.mp hn)
    cases m <;> rfl
  | succ n ih =>
    cases s with
    | nil => cases m <;> rfl
    | cons c s =>
      cases m with
      | zero => exact absurd hm (Nat.not_succ_le_zero _)
      | succ m =>
        rw [tokens, tokens]
        refine Option.bind_congr fun x hx => ?_
        have hlt := nextToken_under c s x hx
        simp only [List.length_cons] at hn hm
        rw [ih (m := m) (by omega) (by omega)]

end Fuel

section Anchor

def Frame.anchor : Frame → Frame
  | ⟨[], items⟩ => ⟨[], .start :: items⟩
  | ⟨r :: rs, items⟩ => ⟨.seq .start r :: rs, items⟩

def anchorOutermost : List Frame → List Frame
  | [] => []
  | [f] => [f.anchor]
  | f :: g :: fs => f :: anchorOutermost (g :: fs)

def Parser.anchor (p : Parser) : Parser := { p with frames := anchorOutermost p.frames }

/-- Only the first alternative begins at the beginning. -/
def anchorFirst : List (Re Atom) → List (Re Atom)
  | [] => []
  | r :: rs => .seq .start r :: rs

theorem push_anchor (f : Frame) (r : Re Atom) : (f.push r).anchor = f.anchor.push r := by
  obtain ⟨done, items⟩ := f
  cases done <;> rfl

theorem alternatives_anchor (f : Frame) : f.anchor.alternatives = anchorFirst f.alternatives := by
  obtain ⟨done, items⟩ := f
  cases done <;> rfl

theorem bar_anchor (f : Frame) :
    (⟨f.alternatives, []⟩ : Frame).anchor = ⟨f.anchor.alternatives, []⟩ := by
  obtain ⟨done, items⟩ := f
  cases done <;> rfl

theorem repeat_anchor {f : Frame} {r : Re Atom} (h : f.items.getLast? = some r) (t : Re Atom) :
    f.anchor.items.getLast? = some r ∧
      ({ f with items := f.items.dropLast ++ [t] } : Frame).anchor =
        { f.anchor with items := f.anchor.items.dropLast ++ [t] } := by
  obtain ⟨done, items⟩ := f
  cases done with
  | nil =>
    cases items with
    | nil => exact nomatch h
    | cons x xs => exact ⟨List.getLast?_cons_cons.trans h, rfl⟩
  | cons d ds => exact ⟨h, rfl⟩

theorem step_anchor {p q : Parser} {t : Token} (h : p.step t = some q) :
    p.anchor.step t = some q.anchor := by
  obtain ⟨frames, repeated⟩ := p
  cases frames with
  | nil => exact nomatch h
  | cons f fs =>
    -- the innermost group is the outermost one, or the caret is below it
    cases fs with
    | nil =>
      cases t with
      | rightParen => exact nomatch h
      | rep low high =>
        simp only [Parser.step] at h
        split_ifs at h with hr
        obtain ⟨r, hlast, rfl⟩ := Option.map_eq_some_iff.mp h
        obtain ⟨hlast', hframe⟩ := repeat_anchor hlast (.rep r low high)
        simp only [Parser.step, Parser.anchor, anchorOutermost, hlast', hframe, hr,
          Bool.false_eq_true, if_false, Option.map_some]
      | bar =>
        obtain rfl := Option.some.inj h
        simp only [Parser.step, Parser.anchor, anchorOutermost, bar_anchor]
      | leftParen =>
        obtain rfl := Option.some.inj h
        rfl
      | atom a =>
        obtain rfl := Option.some.inj h
        simp only [Parser.step, Parser.anchor, anchorOutermost, push_anchor]
      | beginText =>
        obtain rfl := Option.some.inj h
        simp only [Parser.step, Parser.anchor, anchorOutermost, push_anchor]
      | endText =>
        obtain rfl := Option.some.inj h
        simp only [Parser.step, Parser.anchor, anchorOutermost, push_anchor]
    | cons g gs =>
      cases t with
      | rightParen =>
        obtain rfl := Option.some.inj h
        cases gs with
        | nil => simp only [Parser.step, Parser.anchor, anchorOutermost, push_anchor]
        | cons k ks => rfl
      | rep low high =>
        simp only [Parser.step] at h
        split_ifs at h with hr
        obtain ⟨r, hlast, rfl⟩ := Option.map_eq_some_iff.mp h
        simp only [Parser.step, Parser.anchor, anchorOutermost, hlast, hr, Bool.false_eq_true,
          if_false, Option.map_some]
      | bar | leftParen | atom a | beginText | endText =>
        obtain rfl := Option.some.inj h
        rfl

theorem run_anchor {p q : Parser} {ts : List Token} (h : run Parser.step p ts = some q) :
    run Parser.step p.anchor ts = some q.anchor := by
  induction ts generalizing p with
  | nil =>
    obtain rfl := Option.some.inj h
    rfl
  | cons t ts ih =>
    obtain ⟨p', hp', hrest⟩ := Option.bind_eq_some_iff.mp h
    rw [run_cons (step_anchor hp')]
    exact ih hrest

theorem parse_caret {pattern : List Char} {rs : List (Re Atom)} (h : parse pattern = some rs) :
    parse ('^' :: pattern) = some (anchorFirst rs) := by
  obtain ⟨ts, hts, hrun⟩ := Option.bind_eq_some_iff.mp h
  obtain ⟨p, hp, hframes⟩ := Option.bind_eq_some_iff.mp hrun
  have hcaret : tokens ('^' :: pattern).length ('^' :: pattern) = some (.beginText :: ts) := by
    rw [List.length_cons, tokens, nextToken, if_pos rfl, Option.bind_some, hts, Option.map_some]
  obtain ⟨frames, repeated⟩ := p
  cases frames with
  | nil => exact nomatch hframes
  | cons f fs =>
    cases fs with
    | cons g gs => exact nomatch hframes
    | nil =>
      obtain rfl := Option.some.inj hframes
      have hrun' : run Parser.step ⟨[⟨[], []⟩], false⟩ (.beginText :: ts) =
          some ⟨[f.anchor], repeated⟩ := run_anchor hp
      rw [parse, hcaret, Option.bind_some, hrun', Option.bind_some, ← alternatives_anchor]

end Anchor

section Meaning

variable {s : List Char}

theorem matches_alternate {rs : List (Re Atom)} (hne : rs ≠ []) {i j : ℕ} :
    Matches Atom.sat s (alternate rs) i j ↔ ∃ r ∈ rs, Matches Atom.sat s r i j := by
  induction rs with
  | nil => exact absurd rfl hne
  | cons r rs ih =>
    cases rs with
    | nil => simp [alternate]
    | cons r' rs =>
      rw [List.exists_mem_cons_iff, ← ih (List.cons_ne_nil _ _)]
      rfl

theorem parse_ne_nil {pattern : List Char} {rs : List (Re Atom)} (h : parse pattern = some rs) :
    rs ≠ [] := by
  obtain ⟨ts, -, hrun⟩ := Option.bind_eq_some_iff.mp h
  obtain ⟨p, -, hframes⟩ := Option.bind_eq_some_iff.mp hrun
  split at hframes
  · obtain rfl := Option.some.inj hframes
    exact List.append_ne_nil_of_right_ne_nil _ (List.cons_ne_nil _ _)
  · exact nomatch hframes

def MatchesStart (pattern name : String) : Prop :=
  ∃ r, compile pattern = some r ∧ ∃ j, Matches Atom.sat name.toList r 0 j

/-- An alternative behind the first, outside all groups, matches somewhere in the name. -/
def FoundLater (pattern name : String) : Prop :=
  ∃ rs, parse pattern.toList = some rs ∧
    ∃ r ∈ rs.tail, ∃ i ≤ name.toList.length, ∃ j, Matches Atom.sat name.toList r i j

instance (pattern name : String) : Decidable (MatchesStart pattern name) :=
  decidable_of_iff ((compile pattern).any (fun r => !(ends Atom.sat name.toList r 0).isEmpty) =
    true) <| by
    rw [Option.any_eq_true]
    exact exists_congr fun r => and_congr_right fun _ => ends_ne_nil_iff

instance (pattern name : String) : Decidable (FoundLater pattern name) :=
  decidable_of_iff
    ((parse pattern.toList).any (fun rs => rs.tail.any (matchString Atom.sat name.toList)) =
      true) <| by
    rw [Option.any_eq_true]
    refine exists_congr fun rs => and_congr_right fun _ => ?_
    rw [List.any_eq_true]
    exact exists_congr fun r => and_congr_right fun _ => matchString_iff

theorem matchString_anchored {pattern : String} (h : (compile pattern).isSome) (name : String) :
    ∃ r, compile ("^" ++ pattern) = some r ∧
      (matchString Atom.sat name.toList r = true ↔
        MatchesStart pattern name ∨ FoundLater pattern name) := by
  obtain ⟨r₀, hcompile⟩ := Option.isSome_iff_exists.mp h
  obtain ⟨rs, hrs, rfl⟩ := Option.map_eq_some_iff.mp hcompile
  have hcaret : compile ("^" ++ pattern) = some (alternate (anchorFirst rs)) := by
    have hlist : ("^" ++ pattern).toList = '^' :: pattern.toList := by simp
    rw [compile, hlist, parse_caret hrs, Option.map_some]
  refine ⟨_, hcaret, ?_⟩
  cases rs with
  | nil => exact absurd rfl (parse_ne_nil hrs)
  | cons r rs =>
    have hstart : MatchesStart pattern name ↔
        ∃ t ∈ r :: rs, ∃ j, Matches Atom.sat name.toList t 0 j := by
      constructor
      · rintro ⟨r', hr', j, hj⟩
        obtain rfl := Option.some.inj (hcompile.symm.trans hr')
        obtain ⟨t, ht, hm⟩ := (matches_alternate (parse_ne_nil hrs)).mp hj
        exact ⟨t, ht, j, hm⟩
      · rintro ⟨t, ht, j, hm⟩
        exact ⟨_, hcompile, j, (matches_alternate (parse_ne_nil hrs)).mpr ⟨t, ht, hm⟩⟩
    have hlater : FoundLater pattern name ↔
        ∃ t ∈ rs, ∃ i ≤ name.toList.length, ∃ j, Matches Atom.sat name.toList t i j := by
      constructor
      · rintro ⟨rs', hrs', hmatch⟩
        obtain rfl := Option.some.inj (hrs.symm.trans hrs')
        exact hmatch
      · exact fun hmatch => ⟨_, hrs, hmatch⟩
    rw [matchString_iff, hstart, hlater]
    constructor
    · rintro ⟨i, hi, j, hm⟩
      obtain ⟨t, ht, hm⟩ := (matches_alternate (List.cons_ne_nil _ _)).mp hm
      rcases List.mem_cons.mp ht with rfl | ht
      · obtain ⟨k, ⟨rfl, rfl⟩, hm⟩ := hm
        exact .inl ⟨r, List.mem_cons_self, j, hm⟩
      · exact .inr ⟨t, ht, i, hi, j, hm⟩
    · rintro (⟨t, ht, j, hm⟩ | ⟨t, ht, i, hi, j, hm⟩)
      · refine ⟨0, Nat.zero_le _, j, (matches_alternate (List.cons_ne_nil _ _)).mpr ?_⟩
        rcases List.mem_cons.mp ht with rfl | ht
        · exact ⟨_, List.mem_cons_self, 0, ⟨rfl, rfl⟩, hm⟩
        · exact ⟨t, List.mem_cons_of_mem _ ht, hm⟩
      · exact ⟨i, hi, j, (matches_alternate (List.cons_ne_nil _ _)).mpr
          ⟨t, List.mem_cons_of_mem _ ht, hm⟩⟩

end Meaning

section Kept

variable {P : Type} {name : P → String} {included excluded : List String} {plugins : List P}

def Starts (patterns : List String) (n : String) : Prop := ∃ p ∈ patterns, MatchesStart p n

instance (patterns : List String) (n : String) : Decidable (Starts patterns n) :=
  inferInstanceAs (Decidable (∃ p ∈ patterns, MatchesStart p n))

/-- The name is found by a later alternative, although no pattern matches its beginning. -/
def Strays (patterns : List String) (n : String) : Prop :=
  (∃ p ∈ patterns, FoundLater p n) ∧ ¬ Starts patterns n

instance (patterns : List String) (n : String) : Decidable (Strays patterns n) :=
  inferInstanceAs (Decidable ((∃ p ∈ patterns, FoundLater p n) ∧ ¬ Starts patterns n))

theorem compileAll_spec {patterns : List String} (h : ∀ p ∈ patterns, (compile p).isSome) :
    ∃ res, compileAll patterns = .ok res ∧
      ∀ n, matchAny res n = true ↔ Starts patterns n ∨ Strays patterns n := by
  have hloop : ∃ res, compileAll patterns = .ok res ∧
      ∀ n, matchAny res n = true ↔ ∃ p ∈ patterns, MatchesStart p n ∨ FoundLater p n := by
    induction patterns with
    | nil => exact ⟨[], rfl, fun n => by simp [matchAny]⟩
    | cons p ps ih =>
      obtain ⟨res, hres, hmatch⟩ := ih fun q hq => h q (List.mem_cons_of_mem p hq)
      have hp := h p List.mem_cons_self
      obtain ⟨r, hr, -⟩ := matchString_anchored hp ""
      refine ⟨r :: res, ?_, fun n => ?_⟩
      · rw [compileAll, hr, hres]
        rfl
      · obtain ⟨r', hr', hn⟩ := matchString_anchored hp n
        obtain rfl := Option.some.inj (hr.symm.trans hr')
        rw [List.exists_mem_cons_iff, ← hmatch, ← hn]
        exact iff_of_eq (Bool.or_eq_true _ _)
  obtain ⟨res, hres, hmatch⟩ := hloop
  refine ⟨res, hres, fun n => (hmatch n).trans ⟨?_, ?_⟩⟩
  · rintro ⟨p, hp, hm⟩
    by_cases hstart : Starts patterns n
    · exact .inl hstart
    · rcases hm with hm | hm
      · exact .inl ⟨p, hp, hm⟩
      · exact .inr ⟨⟨p, hp, hm⟩, hstart⟩
  · rintro (⟨p, hp, hm⟩ | ⟨⟨p, hp, hm⟩, -⟩)
    · exact ⟨p, hp, .inl hm⟩
    · exact ⟨p, hp, .inr hm⟩

def Keeps (included excluded : List String) (n : String) : Prop :=
  (included = [] ∨ Starts included n) ∧ ¬ Starts excluded n

instance (included excluded : List String) (n : String) : Decidable (Keeps included excluded n) :=
  inferInstanceAs (Decidable ((included = [] ∨ Starts included n) ∧ ¬ Starts excluded n))

/-- The filters keep what they should, in order, and say whether an include matched. -/
def Anchored (name : P → String) (included excluded : List String) (plugins : List P) : Prop :=
  ∃ inc exc, compileAnchored included = .ok inc ∧ compileAnchored excluded = .ok exc ∧
    (applyFilters name plugins inc exc).1 =
      plugins.filter (fun p => Keeps included excluded (name p)) ∧
    ((applyFilters name plugins inc exc).2 = true ↔
      included = [] ∨ ∃ p ∈ plugins, Starts included (name p))

/-- A plugin that strays past the includes is excluded and not the only match, and no plugin that is
included strays into the excludes. -/
structure Clear (name : P → String) (included excluded : List String) (plugins : List P) :
    Prop where
  dropped : ∀ p ∈ plugins, Strays included (name p) →
    Starts excluded (name p) ∨ Strays excluded (name p)
  spared : ∀ p ∈ plugins, included = [] ∨ Starts included (name p) → ¬ Strays excluded (name p)
  matched : (∃ p ∈ plugins, Strays included (name p)) → ∃ p ∈ plugins, Starts included (name p)

theorem not_strays_nil (n : String) : ¬ Strays [] n := fun h => by
  obtain ⟨⟨p, hp, -⟩, -⟩ := h
  exact List.not_mem_nil hp

theorem compileAnchored_spec {patterns : List String} (h : ∀ p ∈ patterns, (compile p).isSome) :
    (patterns = [] ∧ compileAnchored patterns = .ok none) ∨
      (patterns ≠ [] ∧ ∃ res, compileAnchored patterns = .ok (some res) ∧
        ∀ n, matchAny res n = true ↔ Starts patterns n ∨ Strays patterns n) := by
  rw [compileAnchored]
  split_ifs with hnil
  · exact .inl ⟨hnil, rfl⟩
  · obtain ⟨res, hres, hmatch⟩ := compileAll_spec h
    refine .inr ⟨hnil, res, ?_, hmatch⟩
    rw [hres]
    rfl

theorem applyFilters_spec (name : P → String) (plugins : List P)
    (hi : ∀ p ∈ included, (compile p).isSome) (he : ∀ p ∈ excluded, (compile p).isSome) :
    ∃ inc exc, compileAnchored included = .ok inc ∧ compileAnchored excluded = .ok exc ∧
      (∃ keep : P → Bool, (applyFilters name plugins inc exc).1 = plugins.filter keep ∧
        ∀ p, keep p = true ↔
          (included = [] ∨ Starts included (name p) ∨ Strays included (name p)) ∧
            ¬ (Starts excluded (name p) ∨ Strays excluded (name p))) ∧
      ((applyFilters name plugins inc exc).2 = true ↔ included = [] ∨
        ∃ p ∈ plugins, Starts included (name p) ∨ Strays included (name p)) := by
  have hstage : ∃ inc, compileAnchored included = .ok inc ∧
      ∃ keep : P → Bool, (∀ p, keep p = true ↔
          included = [] ∨ Starts included (name p) ∨ Strays included (name p)) ∧
        ∃ matched : Bool, (matched = true ↔ included = [] ∨
            ∃ p ∈ plugins, Starts included (name p) ∨ Strays included (name p)) ∧
          ∀ exc, applyFilters name plugins inc exc = match exc with
            | none => (plugins.filter keep, matched)
            | some res => ((plugins.filter keep).filter (fun p => !matchAny res (name p)),
                matched) := by
    rcases compileAnchored_spec hi with ⟨rfl, hok⟩ | ⟨hne, res, hok, hmatch⟩
    · refine ⟨none, hok, fun _ => true, fun p => by simp, true, by simp, fun exc => ?_⟩
      rw [List.filter_true]
      rfl
    · refine ⟨some res, hok, fun p => matchAny res (name p), fun p => ?_,
        plugins.any (fun p => matchAny res (name p)), ?_, fun exc => rfl⟩
      · rw [hmatch, or_iff_right hne]
      · rw [List.any_eq_true, or_iff_right hne]
        exact exists_congr fun p => and_congr_right fun _ => hmatch (name p)
  obtain ⟨inc, hinc, keep, hkeep, matched, hmatched, happly⟩ := hstage
  rcases compileAnchored_spec he with ⟨rfl, hok⟩ | ⟨-, res, hok, hmatch⟩
  · refine ⟨inc, none, hinc, hok, ⟨keep, by rw [happly], fun p => ?_⟩,
      by rw [happly]; exact hmatched⟩
    have hno : ¬ (Starts [] (name p) ∨ Strays [] (name p)) := by
      rintro (⟨q, hq, -⟩ | hs)
      · exact List.not_mem_nil hq
      · exact not_strays_nil _ hs
    rw [hkeep, and_iff_left hno]
  · refine ⟨inc, some res, hinc, hok, ⟨fun p => keep p && !matchAny res (name p), ?_, fun p => ?_⟩,
      by rw [happly]; exact hmatched⟩
    · rw [happly]
      dsimp only
      rw [List.filter_filter]
      exact List.filter_congr fun p _ => Bool.and_comm _ _
    · rw [Bool.and_eq_true, hkeep, Bool.not_eq_true', ← hmatch, Bool.not_eq_true]

theorem filter_eq_filter_iff {p q : P → Bool} :
    plugins.filter p = plugins.filter q ↔ ∀ x ∈ plugins, p x = q x := by
  constructor
  · intro h x hx
    rw [Bool.eq_iff_iff]
    have hmem : x ∈ plugins.filter p ↔ x ∈ plugins.filter q := by rw [h]
    simpa [List.mem_filter, hx] using hmem
  · exact List.filter_congr

/-- The filters are anchored exactly if no alternative behind the first makes a difference. -/
theorem filters_anchored_iff (name : P → String) (included excluded : List String)
    (plugins : List P)
    (hi : ∀ p ∈ included, (compile p).isSome) (he : ∀ p ∈ excluded, (compile p).isSome) :
    Anchored name included excluded plugins ↔ Clear name included excluded plugins := by
  obtain ⟨inc, exc, hinc, hexc, ⟨keep, hkept, hkeep⟩, hmatched⟩ :=
    applyFilters_spec name plugins hi he
  have hstray : ∀ n, Strays included n → ¬ Starts included n ∧ included ≠ [] := fun n h =>
    ⟨h.2, fun hnil => not_strays_nil n (hnil ▸ h)⟩
  have hexcl : ∀ n, Strays excluded n → ¬ Starts excluded n := fun n h => h.2
  constructor
  · rintro ⟨inc', exc', hinc', hexc', hkept', hmatched'⟩
    obtain rfl := Except.ok.inj (hinc.symm.trans hinc')
    obtain rfl := Except.ok.inj (hexc.symm.trans hexc')
    have hsame := filter_eq_filter_iff.mp (hkept.symm.trans hkept')
    have hiff :
        ∀ p ∈ plugins, ((included = [] ∨ Starts included (name p) ∨ Strays included (name p)) ∧
        ¬ (Starts excluded (name p) ∨ Strays excluded (name p))) ↔
          Keeps included excluded (name p) := fun p hp => by
      rw [← hkeep, hsame p hp, decide_eq_true_eq]
    refine ⟨fun p hp hs => ?_, fun p hp hin hs => ?_, fun ⟨p, hp, hs⟩ => ?_⟩
    · by_contra hno
      obtain ⟨hin, -⟩ := (hiff p hp).mp ⟨.inr (.inr hs), hno⟩
      rcases hin with hnil | hstart
      · exact (hstray _ hs).2 hnil
      · exact hs.2 hstart
    · have hkeeps : Keeps included excluded (name p) := ⟨hin, hexcl _ hs⟩
      exact ((hiff p hp).mpr hkeeps).2 (.inr hs)
    · rcases hmatched'.mp (hmatched.mpr (.inr ⟨p, hp, .inr hs⟩)) with hnil | hfound
      · exact absurd hnil (hstray _ hs).2
      · exact hfound
  · intro h
    refine ⟨inc, exc, hinc, hexc, ?_, hmatched.trans ⟨?_, ?_⟩⟩
    · rw [hkept]
      refine List.filter_congr fun p hp => ?_
      rw [Bool.eq_iff_iff, hkeep, decide_eq_true_eq]
      constructor
      · rintro ⟨hin, hno⟩
        rw [not_or] at hno
        rcases hin with hnil | hstart | hs
        · exact ⟨.inl hnil, hno.1⟩
        · exact ⟨.inr hstart, hno.1⟩
        · exact absurd (h.dropped p hp hs) (not_or.mpr hno)
      · rintro ⟨hin, hno⟩
        refine ⟨?_, not_or.mpr ⟨hno, h.spared p hp hin⟩⟩
        rcases hin with hnil | hstart
        · exact .inl hnil
        · exact .inr (.inl hstart)
    · rintro (hnil | ⟨p, hp, hstart | hs⟩)
      · exact .inl hnil
      · exact .inr ⟨p, hp, hstart⟩
      · exact .inr (h.matched ⟨p, hp, hs⟩)
    · rintro (hnil | ⟨p, hp, hstart⟩)
      · exact .inl hnil
      · exact .inr ⟨p, hp, .inl hstart⟩

/-- An alternation inside a group is anchored as a whole. -/
theorem grouped_alternation_anchored :
    (["a.*", "(b|c)+"].all (fun p => (compile p).isSome)) = true ∧
      Anchored id ["a.*", "(b|c)+"] ["ab"] ["abc", "alpha", "cb", "xb"] := by
  refine ⟨by
    decide +kernel, (filters_anchored_iff id _ _ _ (by decide +kernel) (by decide +kernel)).mpr ?_⟩
  exact ⟨by decide +kernel, by decide +kernel, by decide +kernel⟩

/-- The second alternative of the pattern is found in the middle of the name. -/
theorem bare_alternation_not_anchored :
    (compile "a|b").isSome ∧ ¬ Starts ["a|b"] "xb" ∧ ¬ Anchored id ["a|b"] [] ["xb"] := by
  have hno : ¬ Starts ["a|b"] "xb" := by decide +kernel
  refine ⟨by decide +kernel, hno, ?_⟩
  rintro ⟨inc, exc, hinc, hexc, hkept, -⟩
  have hincluded : ∃ res, compileAnchored ["a|b"] = .ok (some res) ∧ matchAny res "xb" = true :=
    ⟨_, rfl, by decide +kernel⟩
  obtain ⟨res, hres, hmatch⟩ := hincluded
  obtain rfl := Except.ok.inj (hres.symm.trans hinc)
  obtain rfl := Except.ok.inj (show Except.ok none = Except.ok exc from hexc)
  have hmem : "xb" ∈ (applyFilters id ["xb"] (some res) none).1 :=
    List.mem_filter.mpr ⟨List.mem_singleton_self _, hmatch⟩
  rw [hkept, List.mem_filter, decide_eq_true_eq] at hmem
  exact hno (hmem.2.1.resolve_left (List.cons_ne_nil _ _))

end Kept

end AchProofs.Operator.MarketplaceFilters
