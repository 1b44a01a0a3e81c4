import AchProofs.Foundation.Search

namespace AchProofs.Cli.Composite

open Foundation.Search

abbrev Text := List Char

def beginWord : Text := ['!', '-', '-', ' ', 'a', 'c', 'h', ':', 'b', 'e', 'g', 'i', 'n', ':']

def endWord : Text := ['!', '-', '-', ' ', 'a', 'c', 'h', ':', 'e', 'n', 'd', ':']

def closeWord : Text := [' ', '-', '-']

def beginTail (id : String) : Text := beginWord ++ (id.toList ++ closeWord ++ ['>'])

def endTail (id : String) : Text := endWord ++ (id.toList ++ closeWord ++ ['>'])

def beginMarker (id : String) : Text := '<' :: beginTail id

def endMarker (id : String) : Text := '<' :: endTail id

/-- The marked block of an id. Newlines at the end of the content are trimmed. -/
def compositeBlock (id : String) (content : Text) : Text :=
  beginMarker id ++ (['\n'] ++ content.rdropWhile (fun c => c = '\n') ++ ['\n']) ++
    endMarker id ++ ['\n']

/-- The leftmost match of the marker expression of an id, with the text before and after it. -/
def pluginMarkerRE (id : String) (body : Text) : Option (Text × Text × Text) :=
  findRegion (beginMarker id) (endMarker id) '\n' body

def region (id : String) (body : Text) : Option Text :=
  (pluginMarkerRE id body).map (fun m => m.2.1)

/-- The name after a dollar sign in a replacement template, in braces or bare, and what follows. -/
def extract (word : Char → Bool) (s : Text) : Option (Text × Text) :=
  match s with
  | '{' :: s =>
    match s.span word with
    | ([], _) => none
    | (name, '}' :: rest) => some (name, rest)
    | _ => none
  | s =>
    match s.span word with
    | ([], _) => none
    | (name, rest) => some (name, rest)

/-- Template expansion of a replacement. The expression has no groups, so a reference to the whole
match is the only one with a value. -/
def expandFuel (word : Char → Bool) (m : Text) : ℕ → Text → Text
  | 0, t => t
  | _, [] => []
  | n + 1, c :: t =>
    if c = '$' then
      if t.head? = some '$' then '$' :: expandFuel word m n t.tail
      else match extract word t with
        | none => '$' :: expandFuel word m n t
        | some (name, rest) => (if name = ['0'] then m else []) ++ expandFuel word m n rest
    else c :: expandFuel word m n t

def expand (word : Char → Bool) (template m : Text) : Text :=
  expandFuel word m template.length template

def replaceRegions (word : Char → Bool) (id : String) (template body : Text) : Text :=
  replaceAll (pluginMarkerRE id) (expand word template) body

def writeComposite (word : Char → Bool) (id : String) (block body : Text) : Text :=
  match pluginMarkerRE id body with
  | some _ => replaceRegions word id block body
  | none => body ++ block

def removeComposite (word : Char → Bool) (id : String) (body : Text) : Text :=
  replaceRegions word id [] body

/-- No dollar sign of the text starts a template reference. -/
def Literal (word : Char → Bool) : Text → Prop
  | [] => True
  | c :: t => (c = '$' → t.head? ≠ some '$' ∧ extract word t = none) ∧ Literal word t

instance decidableLiteral (word : Char → Bool) : (t : Text) → Decidable (Literal word t)
  | [] => isTrue trivial
  | _ :: t =>
    have := decidableLiteral word t
    inferInstanceAs (Decidable (_ ∧ _))

def ValidId (id : String) : Prop := '<' ∉ id.toList ∧ '>' ∉ id.toList

instance (id : String) : Decidable (ValidId id) := inferInstanceAs (Decidable (_ ∧ _))

variable {id : String} {content : Text}

theorem lt_not_mem_beginTail (h : ValidId id) : '<' ∉ beginTail id := by
  simp [beginTail, beginWord, closeWord, h.1]

theorem lt_not_mem_endTail (h : ValidId id) : '<' ∉ endTail id := by
  simp [endTail, endWord, closeWord, h.1]

theorem eq_of_beginMarker {id' : String} (h : ValidId id) (h' : ValidId id') {x : Text}
    (hp : beginMarker id <+: beginMarker id' ++ x) : id = id' := by
  have hp' : (id.toList ++ closeWord) ++ ['>'] <+: (id'.toList ++ closeWord) ++ '>' :: x := by
    simpa [beginMarker, beginTail, beginWord] using hp
  have heq := eq_of_closed (by simp [h.2, closeWord]) (by simp [h'.2, closeWord]) hp'
  exact String.toList_inj.mp (List.append_cancel_right heq)

theorem beginMarker_not_endMarker (id id' : String) (x : Text) :
    ¬ beginMarker id <+: endMarker id' ++ x := by
  simp [beginMarker, endMarker, beginTail, endTail, beginWord, endWord]

theorem getLast_beginMarker (id : String) : (beginMarker id).getLast? = some '>' := by
  have hsnoc : beginMarker id = ('<' :: (beginWord ++ (id.toList ++ closeWord))) ++ ['>'] := by
    simp [beginMarker, beginTail]
  rw [hsnoc, List.getLast?_concat]

theorem getLast_endMarker (id : String) : (endMarker id).getLast? = some '>' := by
  have hsnoc : endMarker id = ('<' :: (endWord ++ (id.toList ++ closeWord))) ++ ['>'] := by
    simp [endMarker, endTail]
  rw [hsnoc, List.getLast?_concat]

theorem expandFuel_literal {word : Char → Bool} {m t : Text} (h : Literal word t) (n : ℕ) :
    expandFuel word m n t = t := by
  induction n generalizing t with
  | zero => rfl
  | succ n ih =>
    cases t with
    | nil => rfl
    | cons c t =>
      obtain ⟨hc, ht⟩ := h
      unfold expandFuel
      split
      · rename_i hd
        simp only [hc hd, ih ht, if_false, hd]
      · rw [ih ht]

theorem expand_literal {word : Char → Bool} {t : Text} (h : Literal word t) (m : Text) :
    expand word t m = t := expandFuel_literal h _

theorem beginMarker_not_block {id' : String} (h : ValidId id) (h' : ValidId id') (hne : id ≠ id')
    (hc : ¬ beginMarker id <:+: content) : ¬ beginMarker id <:+: compositeBlock id' content := by
  intro hi
  have hsplit : compositeBlock id' content =
      (beginMarker id' ++ (['\n'] ++ content.rdropWhile (fun c => c = '\n') ++ ['\n'])) ++
        '<' :: (endTail id' ++ ['\n']) := by
    simp [compositeBlock, endMarker]
  rw [hsplit] at hi
  obtain hi | hi := infix_append_cons (lt_not_mem_beginTail h) hi
  · obtain hi | hi := List.infix_cons_iff.mp hi
    · exact hne (eq_of_beginMarker h h' hi)
    · have hrest : beginMarker id <:+:
          (beginTail id' ++ ['\n']) ++ (content.rdropWhile (fun c => c = '\n') ++ ['\n']) := by
        simpa [beginMarker] using hi
      have hsnoc := infix_append_of_not_mem
        (by simp [lt_not_mem_beginTail h'] : '<' ∉ beginTail id' ++ ['\n']) hrest
      exact hc ((infix_snoc (getLast_beginMarker id) (by decide) hsnoc).trans
        (List.rdropWhile_prefix _ _).isInfix)
  · obtain hi | hi := List.infix_cons_iff.mp hi
    · exact beginMarker_not_endMarker id id' ['\n'] hi
    · have hrest : beginMarker id <:+: (endTail id' ++ ['\n']) ++ [] := by
        simpa [beginMarker] using hi
      have hnil := infix_append_of_not_mem
        (by simp [lt_not_mem_endTail h'] : '<' ∉ endTail id' ++ ['\n']) hrest
      have := hnil.length_le
      simp at this

theorem endMarker_not_body (hc : ¬ endMarker id <:+: content) :
    ¬ endMarker id <:+: ['\n'] ++ content.rdropWhile (fun c => c = '\n') ++ ['\n'] := by
  intro hi
  rw [List.append_assoc] at hi
  have hsnoc := infix_append_of_not_mem (by decide : '<' ∉ ['\n']) hi
  exact hc ((infix_snoc (getLast_endMarker id) (by decide) hsnoc).trans
    (List.rdropWhile_prefix _ _).isInfix)

/-- The expression of an id finds its block whole when no begin marker of the id comes before it
and no end marker of the id stands in its content. -/
theorem pluginMarkerRE_block (h : ValidId id) {pre : Text} (hpre : ¬ beginMarker id <:+: pre)
    (hc : ¬ endMarker id <:+: content) (post : Text) :
    pluginMarkerRE id (pre ++ compositeBlock id content ++ post) =
      some (pre, compositeBlock id content, post) := by
  have hbegin : cut (beginMarker id) (pre ++ compositeBlock id content ++ post) =
      some (pre, (['\n'] ++ content.rdropWhile (fun c => c = '\n') ++ ['\n']) ++ endMarker id ++
        ('\n' :: post)) := by
    have hcut := cut_marker (lt_not_mem_beginTail h) hpre
      ((['\n'] ++ content.rdropWhile (fun c => c = '\n') ++ ['\n']) ++ endMarker id ++
        ('\n' :: post))
    simpa [compositeBlock, beginMarker] using hcut
  have hend := cut_marker (lt_not_mem_endTail h) (endMarker_not_body hc) ('\n' :: post)
  simp only [pluginMarkerRE, findRegion, hbegin]
  rw [show endMarker id = '<' :: endTail id from rfl, hend]
  simp [compositeBlock, endMarker]

theorem pluginMarkerRE_none {body : Text} (h : ¬ beginMarker id <:+: body) :
    pluginMarkerRE id body = none := by
  simp [pluginMarkerRE, findRegion, cut_eq_none h]

theorem pluginMarkerRE_shorter (id : String) (xs pre m post : Text)
    (h : pluginMarkerRE id xs = some (pre, m, post)) : post.length < xs.length :=
  findRegion_shorter (List.cons_ne_nil _ _) xs pre m post h

theorem replaceRegions_block (word : Char → Bool) (h : ValidId id) {pre post : Text}
    (hpre : ¬ beginMarker id <:+: pre) (hc : ¬ endMarker id <:+: content)
    (hpost : ¬ beginMarker id <:+: post) {template : Text} (ht : Literal word template) :
    replaceRegions word id template (pre ++ compositeBlock id content ++ post) =
      pre ++ template ++ post := by
  have hsome := pluginMarkerRE_block h hpre hc post
  rw [replaceRegions, replaceAll_of_some (pluginMarkerRE_shorter id) hsome,
    replaceAll_of_none (pluginMarkerRE_none hpost), expand_literal ht]

theorem replaceRegions_none (word : Char → Bool) {body : Text} (h : ¬ beginMarker id <:+: body)
    (template : Text) : replaceRegions word id template body = body :=
  replaceAll_of_none (pluginMarkerRE_none h)

end AchProofs.Cli.Composite
