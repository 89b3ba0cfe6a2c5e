import LiquidTemplate.Proofs.Grammar.RawElements
import LiquidTemplate.Proofs.Text.Entities

/-!
# Reading an attribute that was written

A literal name, a sign and a plain value between marks are read as an attribute with that name and that value
(`takesAt_attr`). So a template that is an element without content and with such an attribute is read as that element
(`parse_breakText`).
-/

namespace LiquidTemplate

namespace Text

/-- A text that does not hold the character after another text does not reach over it. -/
theorem prefix_of_prefix_append_cons {s w rest : List Char} {a : Char} (h : s <+: w ++ a :: rest) (ha : a ∉ s) :
    s <+: w := by
  rcases List.prefix_or_prefix_of_prefix h (List.prefix_append w (a :: rest)) with hs | ⟨t, rfl⟩
  · exact hs
  · rw [List.prefix_append_right_inj] at h
    cases t with
    | nil => simp
    | cons b t =>
      obtain rfl : b = a := (List.cons_prefix_cons.1 h).1
      simp at ha

theorem stripStart?_eq_none_iff {s cs : List Char} : stripStart? s cs = none ↔ ¬ s <+: cs := by
  rw [Option.eq_none_iff_forall_not_mem]
  constructor
  · rintro h ⟨rest, rfl⟩
    exact h rest (stripStart?_eq_some_iff.2 rfl)
  · exact fun h rest hrest => h ⟨rest, (stripStart?_eq_some_iff.1 hrest).symm⟩

theorem IsPlain.before {excluded : Char → Bool} {w rest : List Char} {a : Char} (h : IsPlain excluded [] w)
    (ha : a ≠ '\x7b' ∧ a ≠ '%') : IsPlain excluded (a :: rest) w := by
  induction w with
  | nil => trivial
  | cons x w ih =>
    obtain ⟨hx, hclosed, hw⟩ := h
    refine ⟨hx, ?_, ih hw⟩
    rw [List.append_nil] at hclosed
    rw [opensLiquid, Bool.or_eq_false_iff, ← Bool.not_eq_true, ← Bool.not_eq_true, opensWith_iff, opensWith_iff]
      at hclosed ⊢
    have hdrop : a ∉ dropOpen.toList := by simp [dropOpen, ha.1]
    have htag : a ∉ tagOpen.toList := by simp [tagOpen, ha.1, ha.2]
    exact ⟨fun hopens => hclosed.1 (prefix_of_prefix_append_cons hopens hdrop),
      fun hopens => hclosed.2 (prefix_of_prefix_append_cons hopens htag)⟩

end Text

/-! ## Names -/

def endsAttributeName (c : Char) : Bool :=
  Text.isBlank c || c == '=' || c == '>' || c == '"' || c == '\'' || c == '<'

/-- What a text in the name of an attribute cannot hold: the start of Liquid, and the end of a tag. -/
def attributeNameStops : List String :=
  [dropOpen, tagOpen, "/>"]

structure IsLiteralName (name : String) : Prop where
  nonempty : name.toList ≠ []
  chars : ∀ c ∈ name.toList, endsAttributeName c = false
  stops : ∀ s ∈ attributeNameStops, ¬ s.toList <:+: name.toList

namespace Grammar

open Peg Token

def textAt (text : String) (offset : Nat) : Token :=
  .text ⟨⟨offset, offset + Text.byteSize text.toList⟩, text⟩

theorem takesAt_textOf {recur : Cursor → Option (Expression × Cursor)} {α : Type} {p : Grammar α} {text : String}
    {rest : List Char} {x : α} (hp : p.Takes recur text.toList rest x) :
    ((fun m => Token.text m.1) <$> Peg.slice p).TakesAt recur text.toList rest (textAt text) := by
  have h := takesAt_map (f := fun m : Slice × α => Token.text m.1) (takesAt_slice hp.takesAt)
  simp only [String.ofList_toList] at h
  exact h

theorem takesAt_spanned {recur : Cursor → Option (Expression × Cursor)} {α : Type} {p : Grammar (Span → α)}
    {w rest : List Char} {k : Nat → Span → α} (hp : p.TakesAt recur w rest k) :
    (spanned p).TakesAt recur w rest fun offset => k offset ⟨offset, offset + Text.byteSize w⟩ :=
  takesAt_map (takesAt_slice hp)

section

variable {recur : Cursor → Option (Expression × Cursor)} {rest : List Char}

theorem refuses_liquidStart {s : List Char} (h : Text.opensLiquid s = false) : liquidStart.Refuses recur s := by
  rw [Text.opensLiquid, Bool.or_eq_false_iff] at h
  exact refuses_orElse (refuses_text (Option.not_isSome_iff_eq_none.1 (by simpa [Text.opensWith] using h.1)))
    (refuses_text (Option.not_isSome_iff_eq_none.1 (by simpa [Text.opensWith] using h.2)))

theorem refuses_liquid {s : List Char} (h : Text.opensLiquid s = false) : liquid.Refuses recur s := by
  rw [Text.opensLiquid, Bool.or_eq_false_iff] at h
  refine refuses_orElse (refuses_liquidTag ?_) (refuses_named (refuses_map (refuses_delimited ?_)))
  · exact Option.not_isSome_iff_eq_none.1 (by simpa [Text.opensWith] using h.2)
  · exact Option.not_isSome_iff_eq_none.1 (by simpa [Text.opensWith] using h.1)

theorem takesMany_guarded {guard : Grammar Unit} {allowed : Char → Bool} {w : List Char}
    (hw : ∀ u v x, w = u ++ x :: v → allowed x = true ∧ guard.Refuses recur (x :: v ++ rest))
    (hrest : rest.head?.any allowed = false) (hguard : guard.Refuses recur rest) :
    (Peg.notAhead guard *> .char allowed : Grammar Char).TakesMany recur w rest w := by
  induction w with
  | nil =>
    exact takesMany_nil (refuses_seqRight_right (u := []) (takes_notAhead hguard) (refuses_char hrest))
  | cons x w ih =>
    obtain ⟨hx, hopens⟩ := hw [] w x rfl
    have hfirst : (Peg.notAhead guard *> .char allowed : Grammar Char).Takes recur [x] (w ++ rest) x :=
      takes_seqRight (u := []) (takes_notAhead hopens) (takes_char hx)
    refine takesMany_cons (u := [x]) (by simp) hfirst (ih fun u v y hy => ?_)
    exact hw (x :: u) v y (by rw [hy, List.cons_append])

theorem takes_guarded {guard : Grammar Unit} {allowed : Char → Bool} {w : List Char} (hne : w ≠ [])
    (hw : ∀ u v x, w = u ++ x :: v → allowed x = true ∧ guard.Refuses recur (x :: v ++ rest))
    (hrest : rest.head?.any allowed = false) (hguard : guard.Refuses recur rest) :
    ∃ xs, (many1 (.notAhead guard *> .char allowed) : Grammar (List Char)).Takes recur w rest xs := by
  obtain ⟨x, w, rfl⟩ := List.exists_cons_of_ne_nil hne
  obtain ⟨hx, hopens⟩ := hw [] w x rfl
  have hfirst : (Peg.notAhead guard *> .char allowed : Grammar Char).Takes recur [x] (w ++ rest) x :=
    takes_seqRight (u := []) (takes_notAhead hopens) (takes_char hx)
  have hmany := takesMany_guarded (w := w) (fun u v y hy => hw (x :: u) v y (by rw [hy, List.cons_append])) hrest hguard
  exact ⟨_, takes_many1 hfirst hmany⟩

end

/-! ## The parts of an attribute -/

variable {name value : String} {q : Quote}

theorem passes_of_isLiteralName (h : IsLiteralName name) {rest u v : List Char} {x : Char}
    (hname : name.toList = u ++ x :: v) :
    (! endsAttributeName x) = true ∧ (liquidStart <|> .text "/>").Refuses keys (x :: v ++ '=' :: rest) := by
  have hx : endsAttributeName x = false := h.chars x (by simp [hname])
  have hrefuses {s : String} (hs : s ∈ attributeNameStops) (hsign : '=' ∉ s.toList) :
      (Peg.text s : Grammar Unit).Refuses keys (x :: v ++ '=' :: rest) := by
    refine refuses_text (Text.stripStart?_eq_none_iff.2 fun hstarts => h.stops s hs ?_)
    rw [hname]
    exact (Text.prefix_of_prefix_append_cons hstarts hsign).isInfix.trans (List.suffix_append u _).isInfix
  refine ⟨by rw [hx]; rfl, refuses_orElse (refuses_orElse ?_ ?_) ?_⟩
  · exact hrefuses (by simp [attributeNameStops]) (by decide)
  · exact hrefuses (by simp [attributeNameStops]) (by decide)
  · exact hrefuses (by simp [attributeNameStops]) (by decide)

theorem takesAt_attributeName (h : IsLiteralName name) (rest : List Char) :
    attributeName.TakesAt keys name.toList ('=' :: rest) fun offset => [textAt name offset] := by
  have hstops : (liquidStart <|> .text "/>").Refuses keys ('=' :: rest) :=
    refuses_orElse (refuses_orElse (refuses_text rfl) (refuses_text rfl)) (refuses_text rfl)
  obtain ⟨xs, hxs⟩ := takes_guarded h.nonempty (fun _ _ _ => passes_of_isLiteralName h) rfl hstops
  exact takesAt_named (takesAt_many1_single (takesAt_orElse_left (takesAt_textOf hxs))
    (refuses_nameFragment (.inl rfl) rest))

def headChars (name : String) : List Char :=
  name.toList ++ ['=']

theorem takesAt_attributeHead (h : IsLiteralName name) {a : Char} (ha : Text.isBlank a = false) (rest : List Char) :
    attributeHead.TakesAt keys (headChars name) (a :: rest) fun offset => [textAt name offset] := by
  have hname := takesAt_attributeName h (a :: rest)
  have hgap : blanks.TakesAt keys [] ('=' :: a :: rest) fun _ => () := (takes_blanks rfl rfl).takesAt
  have hsign : (Peg.text "=" : Grammar Unit).TakesAt keys ['='] (a :: rest) fun _ => () := takes_text.takesAt
  have hblanks : blanks.TakesAt keys [] (a :: rest) fun _ => () := (takes_blanks rfl (by simpa using ha)).takesAt
  have hhead := takesAt_seqLeft (takesAt_seqLeft (takesAt_seqLeft (v := []) hname hgap) hsign) (v := []) hblanks
  rwa [List.append_nil, List.append_nil] at hhead

def valueAt (value : String) (offset : Nat) : List Token :=
  if value = "" then [] else [textAt value offset]

theorem refuses_valueFragment (rule : Rule) (q : Quote) (rest : List Char) :
    (liquid <|> textWithout rule (· == q.char)).Refuses keys (q.char :: rest) := by
  have hopens : Text.opensLiquid (q.char :: rest) = false :=
    Text.opensLiquid_eq_false_of_ne (by cases q <;> decide)
  refine refuses_orElse (refuses_liquid hopens) (refuses_atom (refuses_map (refuses_slice (refuses_many1 ?_))))
  exact refuses_seqRight_right (u := []) (takes_notAhead (refuses_liquidStart hopens)) (refuses_char (by simp))

theorem takesAt_value (rule : Rule) (h : Text.IsPlain (· == q.char) [] value.toList) (rest : List Char) :
    (Peg.many (liquid <|> textWithout rule (· == q.char))).TakesAt keys value.toList (q.char :: rest)
      (valueAt value) := by
  have hstop := refuses_valueFragment rule q rest
  by_cases hempty : value = ""
  · subst hempty
    exact (takesMany_nil hstop).takes.takesAt
  · have hne : value.toList ≠ [] := by simpa using hempty
    have hmark : q.char ≠ '\x7b' ∧ q.char ≠ '%' := by cases q <;> decide
    have hplain : Text.IsPlain (· == q.char) (q.char :: rest) value.toList := h.before hmark
    have hpasses : ∀ u v x, value.toList = u ++ x :: v →
        (! (x == q.char)) = true ∧ liquidStart.Refuses keys (x :: v ++ q.char :: rest) := by
      intro u v x hvalue
      rw [hvalue, Text.isPlain_append_iff] at hplain
      obtain ⟨-, hx, hopens, -⟩ := hplain
      exact ⟨by simpa using hx, refuses_liquidStart hopens⟩
    obtain ⟨xs, hxs⟩ := takes_guarded hne hpasses (by simp)
      (refuses_liquidStart (Text.opensLiquid_eq_false_of_ne hmark.1))
    have hliquid : liquid.Refuses keys (value.toList ++ q.char :: rest) := by
      obtain ⟨x, w, hw⟩ := List.exists_cons_of_ne_nil hne
      rw [hw] at hplain ⊢
      exact refuses_liquid hplain.2.1
    have hfragments : valueAt value = fun offset => [textAt value offset] := by
      funext offset
      rw [valueAt, if_neg hempty]
    rw [hfragments]
    exact takesAt_many_single hne (takesAt_orElse_right hliquid (takesAt_textOf hxs)) hstop

/-! ## Attributes -/

def assignmentChars (name : String) (q : Quote) (value : String) : List Char :=
  headChars name ++ [q.char] ++ (value.toList ++ [q.char])

def attributeAt (name : String) (q : Quote) (value : String) (offset : Nat) : Token :=
  .attr ⟨offset, offset + Text.byteSize (assignmentChars name q value)⟩ (.quoted q) [textAt name offset]
    (valueAt value (offset + Text.byteSize (headChars name ++ [q.char])))

theorem takesAt_attributeQuoted (rule valueRule textRule : Rule) (hname : IsLiteralName name)
    (hvalue : Text.IsPlain (· == q.char) [] value.toList) (rest : List Char) :
    (attributeQuoted rule valueRule textRule q).TakesAt keys (assignmentChars name q value) rest
      (attributeAt name q value) := by
  have hblank : Text.isBlank q.char = false := by cases q <;> decide
  have hmark (rest : List Char) : (Peg.char (· == q.char) : Grammar Char).TakesAt keys [q.char] rest fun _ => q.char :=
    (takes_char (q := (· == q.char)) (beq_self_eq_true q.char)).takesAt
  have hhead := takesAt_seqLeft (takesAt_attributeHead hname hblank (value.toList ++ [q.char] ++ rest)) (hmark _)
  have hparts := takesAt_seq (takesAt_map (f := Prod.mk) hhead)
    (takesAt_seqLeft (takesAt_value textRule hvalue rest) (hmark rest))
  exact takesAt_named (takesAt_spanned (takesAt_map (f := fun part span => Token.attr span (.quoted q) part.1 part.2)
    hparts))

/-- A value between marks of one kind is no value between marks of another kind. -/
theorem refuses_attributeQuoted (rule valueRule textRule : Rule) (hname : IsLiteralName name) (q other : Quote)
    (hother : q ≠ other) (rest : List Char) :
    (attributeQuoted rule valueRule textRule other).Refuses keys (headChars name ++ q.char :: rest) := by
  have hblank : Text.isBlank q.char = false := by cases q <;> decide
  have hmark : (q.char == other.char) = false := by
    cases q <;> cases other <;> first | rfl | exact absurd rfl hother
  refine refuses_named (refuses_map (refuses_slice (refuses_map (refuses_seq_left (refuses_map ?_)))))
  exact refuses_seqLeft_of_takesAt (takesAt_attributeHead hname hblank rest) (refuses_char hmark)

/-- **An assignment is read as an attribute.** -/
theorem takesAt_attr (hname : IsLiteralName name) (hvalue : Text.IsPlain (· == q.char) [] value.toList)
    (rest : List Char) : attr.TakesAt keys (assignmentChars name q value) rest (attributeAt name q value) := by
  cases q with
  | double => exact takesAt_orElse_left (takesAt_attributeQuoted _ _ _ hname hvalue rest)
  | single =>
    refine takesAt_orElse_right ?_ (takesAt_orElse_left (takesAt_attributeQuoted _ _ _ hname hvalue rest))
    have hother := refuses_attributeQuoted .attrDoubleQuoted .attrValueDouble .attrTextDouble hname
      .single .double (by decide) (value.toList ++ [Quote.single.char] ++ rest)
    simpa only [assignmentChars, List.append_assoc, List.cons_append, List.nil_append] using hother

theorem start_assignmentChars (h : IsLiteralName name) (q : Quote) (value : String) (rest : List Char) :
    (assignmentChars name q value ++ rest).head?.any Text.isBlank = false ∧
      ¬ tagOpen.toList <+: assignmentChars name q value ++ rest := by
  have hchars : assignmentChars name q value ++ rest =
      name.toList ++ '=' :: (q.char :: (value.toList ++ (q.char :: rest))) := by
    simp [assignmentChars, headChars]
  rw [hchars]
  constructor
  · obtain ⟨x, w, hw⟩ := List.exists_cons_of_ne_nil h.nonempty
    have hx := h.chars x (by simp [hw])
    simp only [endsAttributeName, Bool.or_eq_false_iff] at hx
    rw [hw]
    exact hx.1.1.1.1.1
  · intro hstarts
    have hsign : '=' ∉ tagOpen.toList := by decide
    exact h.stops tagOpen (by simp [attributeNameStops]) (Text.prefix_of_prefix_append_cons hstarts hsign).isInfix

theorem takesAt_attributes (hname : IsLiteralName name) (hvalue : Text.IsPlain (· == q.char) [] value.toList)
    (rest : List Char) : attributes.TakesAt keys (' ' :: assignmentChars name q value) ('>' :: rest)
      fun offset => [attributeAt name q value (offset + 1)] := by
  have hattr := takesAt_attr hname hvalue ('>' :: rest)
  obtain ⟨hblank, hopens⟩ := start_assignmentChars hname q value ('>' :: rest)
  have htag : liquidTag.Refuses keys (assignmentChars name q value ++ '>' :: rest) :=
    refuses_liquidTag (Text.stripStart?_eq_none_iff.2 hopens)
  have hgap : blanks.TakesAt keys [' '] (assignmentChars name q value ++ '>' :: rest) fun _ => () :=
    (takes_blanks rfl hblank).takesAt
  have hitem := takesAt_seqRight hgap (takesAt_orElse_right htag hattr)
  have hblanks : blanks.TakesAt keys [] ('>' :: rest) fun _ => () := (takes_blanks rfl rfl).takesAt
  have hlist := takesAt_seqLeft (v := []) (takesAt_many_single (by simp) hitem (refuses_attributeItem rest)) hblanks
  rwa [List.append_nil] at hlist

/-! ## Elements -/

def breakChars (name : String) (q : Quote) (value : String) : List Char :=
  "<br".toList ++ (' ' :: assignmentChars name q value) ++ ['>']

def breakAt (name : String) (q : Quote) (value : String) (offset : Nat) : Token :=
  .voidElement ⟨offset, offset + Text.byteSize (breakChars name q value)⟩ "br" [attributeAt name q value (offset + 4)]

theorem takesAt_elementName_br (rest : List Char) :
    elementName.TakesAt keys "br".toList (' ' :: rest) fun offset => [textAt "br" offset] := by
  have hletters : (many1 (.char isTagNameChar) : Grammar (List Char)).Takes keys "br".toList (' ' :: rest) ['b', 'r'] :=
    takes_many1 (u := ['b']) (takes_char rfl) (takesMany_char rfl rfl)
  have hother : (atom .tagNameText ((fun m => .text m.1) <$> .slice (many1 (.char isTagNameChar))) <|> drop :
      Grammar Token).Refuses keys (' ' :: rest) :=
    refuses_orElse (refuses_atom (refuses_map (refuses_slice (refuses_many1 (refuses_char rfl)))))
      (refuses_named (refuses_map (refuses_delimited rfl)))
  exact takesAt_named (takesAt_many1_single (takesAt_orElse_left (takesAt_textOf hletters)) hother)

theorem ofOpening_br (span : Span) (offset : Nat) (items : List Token) :
    Token.ofOpening span [textAt "br" offset] items false = .voidElement span "br" items := by
  have hvoid : isVoidName "br" = true := by decide +kernel
  simp [Token.ofOpening, textAt, hvoid]

theorem takesAt_openTag (hname : IsLiteralName name) (hvalue : Text.IsPlain (· == q.char) [] value.toList)
    (rest : List Char) : openTag.TakesAt keys (breakChars name q value) rest (breakAt name q value) := by
  have hbracket (rest : List Char) : (Peg.text "<" : Grammar Unit).TakesAt keys ['<'] rest fun _ => () :=
    takes_text.takesAt
  have hstart := takesAt_seqRight (hbracket _) (takesAt_elementName_br (assignmentChars name q value ++ '>' :: rest))
  have hattributes := takesAt_attributes hname hvalue rest
  have hend : (named .htmlTagEnd (giving true (.text "/>") <|> giving false (.text ">")) : Grammar Bool).TakesAt keys
      ['>'] rest fun _ => false :=
    (takes_orElse_right (refuses_giving (refuses_text rfl)) (takes_giving (takes_text (s := ">")))).takesAt
  have hparts := takesAt_seq (takesAt_seq (takesAt_map (f := fun name attributes slash span =>
    Token.ofOpening span name attributes slash) hstart) hattributes) hend
  have htag := takesAt_spanned hparts
  simp only [ofOpening_br] at htag
  exact takesAt_named htag

theorem takesAt_node_break (hname : IsLiteralName name) (hvalue : Text.IsPlain (· == q.char) [] value.toList)
    (rest : List Char) : node.TakesAt keys (breakChars name q value) rest (breakAt name q value) := by
  have hraw : rawElement.Refuses keys (breakChars name q value ++ rest) := by
    refine refuses_named (refuses_map (refuses_slice (refuses_seq_left (refuses_seq_left (refuses_map ?_)))))
    refine refuses_named (refuses_slice (refuses_seq_left (refuses_map (refuses_seqRight_right (u := ['<'])
      (takes_text (s := "<")) (refuses_push (refuses_atom (refuses_covered (refuses_seqLeft_left ?_))))))))
    exact refuses_orElse (refuses_textNoCase (by simp)) (refuses_textNoCase (by simp))
  have hclose : closeTag.Refuses keys (breakChars name q value ++ rest) :=
    refuses_named (refuses_map (refuses_slice (refuses_map (refuses_seqLeft_left (refuses_seqLeft_left
      (refuses_seqRight_left (refuses_text rfl)))))))
  exact takesAt_node_of_tag rfl (by decide)
    (takesAt_orElse_right hraw (takesAt_orElse_right hclose (takesAt_openTag hname hvalue rest)))

end Grammar

/-! ## Templates -/

/-- A template that is a line break element with an attribute. -/
def breakText (name : String) (q : Quote) (value : String) : String :=
  "<br " ++ assignment name q value ++ ">"

theorem toList_breakText (name : String) (q : Quote) (value : String) :
    (breakText name q value).toList = Grammar.breakChars name q value := by
  simp [breakText, assignment, Grammar.breakChars, Grammar.assignmentChars, Grammar.headChars]

def Node.textOf (text : String) (offset : Nat) : Node Unit :=
  { info := (), span := ⟨offset, offset + Text.byteSize text.toList⟩, kind := .text text }

def Node.attributeOf (name : String) (q : Quote) (value : String) (offset : Nat) : Node Unit :=
  { info := (), span := ⟨offset, offset + Text.byteSize (Grammar.assignmentChars name q value)⟩,
    kind := .attr (.quoted q), name := [textOf name offset],
    value := if value = "" then [] else [textOf value (offset + Text.byteSize (Grammar.headChars name ++ [q.char]))] }

def Node.breakOf (name : String) (q : Quote) (value : String) : Node Unit :=
  { info := (), span := ⟨0, Text.byteSize (Grammar.breakChars name q value)⟩, kind := .voidElement "br",
    attributes := [attributeOf name q value 4] }

theorem ofTokens_breakAt (name : String) (q : Quote) (value : String) (strictness : Strictness) :
    Node.ofTokens strictness [Grammar.breakAt name q value 0] = .ok [Node.breakOf name q value] := by
  have hadd : Nesting.addAll {} [Grammar.breakAt name q value 0] = .ok ⟨[Node.breakOf name q value], []⟩ := by
    simp only [Grammar.breakAt, Grammar.attributeAt, Grammar.valueAt, Node.breakOf, Node.attributeOf, Nat.zero_add]
    split <;> rfl
  unfold Node.ofTokens
  rw [hadd]
  cases strictness <;> rfl

/-- **An element with an assignment is read as that element**, with the name and the value of the assignment. -/
theorem parse_breakText {name value : String} {q : Quote} (hname : IsLiteralName name)
    (hvalue : Text.IsPlain (· == q.char) [] value.toList) (strictness : Strictness) :
    Document.parse (breakText name q value) strictness =
      .ok (.ofNodes (breakText name q value) [Node.breakOf name q value]) := by
  have hchars := toList_breakText name q value
  have hnode := Grammar.takesAt_node_break hname hvalue []
  rw [← hchars] at hnode
  have hsource := Grammar.ofSource_of_takesAt (hchars.trans rfl) rfl (by decide) hnode
  rw [parse_of_ofSource hsource, ofTokens_breakAt]

end LiquidTemplate
