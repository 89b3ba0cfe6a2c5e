import LiquidTemplate.Proofs.Nesting.Formed

/-!
# Trees that can be taken apart

What a stage after reading may rely on. The ends of every range lie between two characters, so the range can be cut out
of the source (`Text.isSome_slice?`). A node has something in a list only if its kind has that list
(`Node.FillsOwnLists`), and while the tree is built, what is open always is something with children
(`Nesting.HoldsContainers.addAll`).
-/

namespace LiquidTemplate

/-! ## Offsets between characters -/

namespace Text

/-- An offset between two characters of a text, or at one of its ends. -/
def IsBoundary (s : List Char) (offset : Nat) : Prop :=
  ∃ a b, s = a ++ b ∧ byteSize a = offset

variable {s : List Char} {i j : Nat}

theorem isBoundary_zero (s : List Char) : IsBoundary s 0 :=
  ⟨[], s, rfl, rfl⟩

theorem isBoundary_byteSize (s : List Char) : IsBoundary s (byteSize s) :=
  ⟨s, [], (List.append_nil s).symm, rfl⟩

theorem IsBoundary.le (h : IsBoundary s i) : i ≤ byteSize s := by
  obtain ⟨a, b, rfl, rfl⟩ := h
  rw [byteSize_append]
  exact Nat.le_add_right _ _

theorem eq_nil_of_byteSize {a : List Char} (h : byteSize a = 0) : a = [] := by
  cases a with
  | nil => rfl
  | cons c a =>
    obtain ⟨n, hn⟩ := exists_byteSize_cons c a
    omega

theorem prefix_of_byteSize_le {a c : List Char} (ha : a <+: s) (hc : c <+: s) (hle : byteSize a ≤ byteSize c) :
    a <+: c := by
  rcases List.prefix_or_prefix_of_prefix ha hc with h | ⟨w, rfl⟩
  · exact h
  · rw [byteSize_append] at hle
    have hw : w = [] := eq_nil_of_byteSize (by omega)
    exact ⟨[], by simp [hw]⟩

theorem IsBoundary.exists_split {p w q : List Char} (h : IsBoundary (p ++ (w ++ q)) i) (hstart : byteSize p ≤ i)
    (hstop : i ≤ byteSize p + byteSize w) : ∃ u v, w = u ++ v ∧ i = byteSize (p ++ u) := by
  obtain ⟨c, d, hsplit, rfl⟩ := h
  obtain ⟨u, rfl⟩ := prefix_of_byteSize_le ⟨_, rfl⟩ ⟨d, hsplit.symm⟩ hstart
  rw [List.append_assoc] at hsplit
  have hrest := List.append_cancel_left hsplit
  rw [byteSize_append] at hstop
  obtain ⟨v, rfl⟩ := prefix_of_byteSize_le ⟨d, hrest.symm⟩ ⟨q, rfl⟩ (by omega : byteSize u ≤ byteSize w)
  exact ⟨u, v, rfl, rfl⟩

theorem isSome_slice? (hi : IsBoundary s i) (hj : IsBoundary s j) (hle : i ≤ j) : (slice? s ⟨i, j⟩).isSome = true := by
  obtain ⟨a, b, rfl, rfl⟩ := hi
  obtain ⟨c, d, hsplit, rfl⟩ := hj
  obtain ⟨w, rfl⟩ := prefix_of_byteSize_le ⟨b, rfl⟩ ⟨d, hsplit.symm⟩ hle
  rw [List.append_assoc] at hsplit
  rw [List.append_cancel_left hsplit, byteSize_append, slice?_append]
  rfl

theorem IsBoundary.isSome_takeBytes? (h : IsBoundary s i) : (takeBytes? s i).isSome = true := by
  obtain ⟨a, b, rfl, rfl⟩ := h
  rw [takeBytes?_append]
  rfl

theorem IsBoundary.isSome_dropBytes? (h : IsBoundary s i) : (dropBytes? s i).isSome = true := by
  obtain ⟨a, b, rfl, rfl⟩ := h
  rw [dropBytes?_append]
  rfl

end Text

/-! ## Sound tokens -/

def Markup.statementCount : Markup → Nat
  | .statements lines => lines.length
  | _ => 0

/-- A token at boundaries of the source. A tag has no more statements than bytes, and an attribute that has no value
has nothing in it. -/
structure Token.Sound (source : List Char) (t : Token) : Prop where
  ends : t.span.EndsIn (Text.IsBoundary source)
  statements : ∀ {d name markup}, t = .tag d name markup → d.span.start + markup.statementCount ≤ d.span.stop
  bare : ∀ {span name value}, t = .attr span .bare name value → value = []

namespace Grammar

open Peg

theorem length_splitChars_le (sep : Char → Bool) (cs : List Char) :
    (Text.splitChars sep cs).length ≤ cs.length + 1 := by
  induction cs with
  | nil => exact Nat.le_refl _
  | cons c cs ih =>
    rw [Text.splitChars]
    split
    · rw [List.length_cons, List.length_cons]
      omega
    · split
      next piece pieces hpieces =>
        rw [hpieces] at ih
        simp only [List.length_cons] at ih ⊢
        omega
      · simp

theorem length_statementsOf_le (body : String) : (statementsOf body).length ≤ body.toList.length + 1 := by
  have hlines : (Text.lines body).length ≤ body.toList.length + 1 := by
    have hsplit := length_splitChars_le (· == '\n') body.toList
    unfold Text.lines
    simp only [List.length_map]
    split
    · rw [List.length_dropLast]
      omega
    · exact hsplit
  unfold statementsOf
  have hfilter := List.length_filter_le (fun line => !line.isEmpty) ((Text.lines body).map Text.trim)
  rw [List.length_map] at hfilter
  omega

theorem length_le_byteSize (cs : List Char) : cs.length ≤ Text.byteSize cs := by
  induction cs with
  | nil => exact Nat.le_refl _
  | cons c cs ih =>
    have hpos := c.utf8Size_pos
    rw [List.length_cons, Text.byteSize]
    omega

theorem yields_pair {α : Type} {A : Markup → Prop} (name : Grammar String) (p : Grammar α) {f : α → Markup}
    (hf : ∀ x, A (f x)) : (Prod.mk <$> name <*> (f <$> p)).Yields Forward (fun _ => True) fun m => A m.2 := by
  have htrue {β : Type} (q : Grammar β) := tracks_forward.yields_true q
  exact yields_seq (A := A) (yields_map (htrue name) fun _ _ _ h => h) (yields_map (htrue p) fun x _ => hf x)

theorem yields_pair_count {α : Type} (name : Grammar String) (p : Grammar α) {f : α → Markup}
    (hf : ∀ x, (f x).statementCount = 0) :
    (Prod.mk <$> name <*> (f <$> p)).Yields Forward (fun _ => True) fun m => m.2.statementCount = 0 :=
  yields_pair (A := fun m => m.statementCount = 0) name p hf

/-- Each statement of a `liquid` tag stands on a line of its own. -/
theorem reads_liquidMarkup_count : liquidMarkup.Reads fun c m d => c.offset + m.2.statementCount ≤ d.offset := by
  have hword : (word "liquid").Reads fun c _ d => c.offset + 6 ≤ d.offset := by
    refine reads_seqLeft (Q := fun c _ d => c.offset ≤ d.offset) (reads_map (reads_text fun c d _ hoffset => ?_))
      (reads_offset_le _)
    intro y e hle
    have hsize : Text.byteSize "liquid".toList = 6 := by decide +kernel
    omega
  have hbody : ((fun body => Markup.statements (statementsOf body)) <$>
      atom .liquidLines (covered (upTo tagEnd))).Reads fun c m d => c.offset + m.statementCount ≤ d.offset + 1 := by
    refine reads_map (reads_atom (reads_map (reads_slice ((reads_stepsTo _).imp fun c _ d hsteps => ?_))))
    obtain ⟨w, hw, hoffset⟩ := hsteps
    have hchars : c.charsTo d = w := by simp [Cursor.charsTo, hw]
    have hcount := length_statementsOf_le (String.ofList w)
    have hsize := length_le_byteSize w
    rw [String.toList_ofList] at hcount
    simp only [Cursor.sliceTo, hchars, Markup.statementCount, hoffset]
    omega
  refine reads_named (reads_seq (reads_map (hword.imp fun c _ d hle m e hcount => ?_)) hbody)
  simp only
  omega

theorem reads_tagMarkup_count : tagMarkup.Reads fun c m d => c.offset + m.2.statementCount ≤ d.offset := by
  have htrue {β : Type} (q : Grammar β) := tracks_forward.yields_true q
  have hzero {p : Grammar (String × Markup)} (hp : p.Yields Forward (fun _ => True) fun m => m.2.statementCount = 0) :
      p.Reads fun c m d => c.offset + m.2.statementCount ≤ d.offset := by
    refine ((reads_offset_le p).and hp.reads).imp fun c m d ⟨hle, hcount⟩ => ?_
    rwa [hcount]
  have hassign : assignMarkup.Yields Forward (fun _ => True) fun m => m.2.statementCount = 0 :=
    yields_named (yields_seq (yields_seq (yields_map (htrue _) fun _ _ _ _ _ _ => rfl) (htrue _)) (htrue _))
  have hcycle : cycleMarkup.Yields Forward (fun _ => True) fun m => m.2.statementCount = 0 :=
    yields_named (yields_seq (yields_seq (yields_map (htrue _) fun _ _ _ _ _ _ => rfl) (htrue _)) (htrue _))
  have hsnippet : snippetMarkup.Yields Forward (fun _ => True) fun m => m.2.statementCount = 0 :=
    yields_named (yields_seq (yields_seq (yields_seq (yields_seq (yields_map (htrue _)
      fun _ _ _ _ _ _ _ _ _ _ => rfl) (htrue _)) (htrue _)) (htrue _)) (htrue _))
  exact reads_orElse (hzero (yields_pair_count _ _ fun _ => rfl))
    (reads_orElse (hzero (yields_pair_count _ _ fun _ => rfl)) (reads_orElse (hzero hassign)
      (reads_orElse (hzero (yields_pair_count _ _ fun _ => rfl)) (reads_orElse (hzero hcycle)
        (reads_orElse (hzero hsnippet) (reads_orElse (hzero (yields_pair_count _ _ fun _ => rfl))
          (reads_orElse (hzero (yields_pair_count _ _ fun _ => rfl))
            (reads_orElse (hzero (yields_pair_count _ _ fun _ => rfl)) reads_liquidMarkup_count))))))))

theorem reads_delimited_inner {α : Type} (opening closing : String) {inner : Grammar α} (size : α → Nat)
    (h : inner.Reads fun c x d => c.offset + size x ≤ d.offset) :
    (delimited opening closing inner).Reads fun c x d => c.offset + size x.inner ≤ d.offset := by
  have hinner : (inner <* blanks).Reads fun c x d => c.offset + size x ≤ d.offset :=
    reads_seqLeft (h.imp fun _ _ _ hle _ _ hle' => Nat.le_trans hle hle') (reads_offset_le blanks)
  refine reads_sliced (reads_seq (reads_seq (reads_map ((reads_offset_le _).imp ?_)) hinner) (reads_offset_le _))
  intro c _ d hle x e hx _ f hle'
  simp only
  omega

theorem reads_tag_count : tag.Reads fun c t d => ∀ {delimiter name markup}, t = .tag delimiter name markup →
    c.offset + markup.statementCount ≤ d.offset := by
  have hknown : (tagMarkup <* .ahead tagEnd).Reads fun c m d => c.offset + m.2.statementCount ≤ d.offset :=
    reads_seqLeft (reads_tagMarkup_count.imp fun _ _ _ hle _ _ hle' => Nat.le_trans hle hle') (reads_offset_le _)
  have hplain : (plainTag tagName).Reads fun c m d => c.offset + m.2.statementCount ≤ d.offset := by
    have hcount : (plainTag tagName).Yields Forward (fun _ => True) fun m => m.2.statementCount = 0 :=
      yields_seq (yields_map (tracks_forward.yields_true _) fun _ _ _ _ => rfl) (tracks_forward.yields_true _)
    refine ((reads_offset_le _).and hcount.reads).imp fun c m d ⟨hle, hcount⟩ => ?_
    rwa [hcount]
  refine reads_named (reads_map ((reads_delimited_inner _ _ (fun m => m.2.statementCount)
    (reads_orElse hknown hplain)).imp ?_))
  rintro c x d hle _ _ _ ⟨⟩
  exact hle

end Grammar

def Cursor.IsIn (s : List Char) (c : Cursor) : Prop :=
  ∃ a, s = a ++ c.rest ∧ Text.byteSize a = c.offset

namespace Cursor.IsIn

variable {s : List Char} {c d : Cursor}

theorem isBoundary (h : c.IsIn s) : Text.IsBoundary s c.offset := by
  obtain ⟨a, hs, ha⟩ := h
  exact ⟨a, c.rest, hs, ha⟩

theorem steps (h : c.IsIn s) (hsteps : c.StepsTo d) : d.IsIn s := by
  obtain ⟨a, rfl, ha⟩ := h
  obtain ⟨w, hw, hoffset⟩ := hsteps
  exact ⟨a ++ w, by rw [hw, List.append_assoc], by rw [Text.byteSize_append, ha, hoffset]⟩

end Cursor.IsIn

namespace Grammar

open Peg

/-- Of the tags in a template, only those that neither open nor close a block can have statements. -/
theorem reads_liquidTag_count : liquidTag.Reads fun c t d => ∀ {delimiter name markup},
    t = .tag delimiter name markup → c.offset + markup.statementCount ≤ d.offset := by
  refine reads_orElse ?_ (reads_orElse ?_ (reads_orElse ?_ reads_tag_count))
  · refine reads_named (reads_spanned (reads_seq (reads_seq (reads_map ?_) (reads_true _)) (reads_true _)))
    exact (reads_true _).imp fun _ _ _ _ _ _ _ _ _ _ => nofun
  · exact reads_named (reads_map ((reads_true _).imp fun _ _ _ _ => nofun))
  · exact reads_named (reads_map ((reads_true _).imp fun _ _ _ _ => nofun))

theorem sound_of_reads {s : List Char} {p : Grammar Token} (hplace : p.Reads fun c t d => t.Occupies c.offset d.offset)
    (hmarkup : p.Reads fun _ t _ => IsMarkup t)
    (hcount : p.Reads fun c t d => ∀ {delimiter name markup}, t = .tag delimiter name markup →
      c.offset + markup.statementCount ≤ d.offset) :
    p.Reads fun c t _ => c.IsIn s → t.Sound s := by
  intro recur hrecur c t d hread hc
  have hd : d.IsIn s := hc.steps (reads_stepsTo p recur hrecur c t d hread)
  obtain ⟨hspan, -⟩ := hplace recur hrecur c t d hread
  refine ⟨?_, ?_, ?_⟩
  · rw [hspan]
    exact ⟨hc.isBoundary, hd.isBoundary⟩
  · rintro delimiter name markup rfl
    have hle := hcount recur hrecur c _ d hread rfl
    change delimiter.span = _ at hspan
    rwa [hspan]
  · rintro span name value rfl
    cases (hmarkup recur hrecur c _ d hread).1

theorem tracks_isIn (s : List Char) : Tracks (Forward (ρ := Expression)) (Cursor.IsIn s) :=
  ⟨fun _ h => h, fun _ _ hc hsteps => hc.steps hsteps⟩

theorem soundRules (s : List Char) : TokenRules Forward (Cursor.IsIn s) (Token.Sound s) where
  toTracks := tracks_isIn s
  liquidTag := sound_of_reads reads_liquidTag isMarkup_liquidTag reads_liquidTag_count
  drop := sound_of_reads reads_drop isMarkup_drop
    (reads_named (reads_map ((reads_true _).imp fun _ _ _ _ => nofun)))
  text c d hc hd := ⟨⟨hc.isBoundary, hd.isBoundary⟩, nofun, nofun⟩
  frontMatter c d hc hd _ := ⟨⟨hc.isBoundary, hd.isBoundary⟩, nofun, nofun⟩
  comment c d hc hd _ := ⟨⟨hc.isBoundary, hd.isBoundary⟩, nofun, nofun⟩
  doctype c d hc hd _ := ⟨⟨hc.isBoundary, hd.isBoundary⟩, nofun, nofun⟩
  openTag := by
    refine reads_openTag_of (tracks_isIn s) ?_ ?_ ?_ <;>
      exact fun c d hc hd _ _ => ⟨⟨hc.isBoundary, hd.isBoundary⟩, nofun, nofun⟩
  closeTag := reads_closeTag_of (tracks_isIn s) fun _ _ hc hd _ => ⟨⟨hc.isBoundary, hd.isBoundary⟩, nofun, nofun⟩
  rawElement := reads_rawElement_of (tracks_isIn s) fun _ _ hc hd _ _ _ _ _ =>
    ⟨⟨hc.isBoundary, hd.isBoundary⟩, nofun, nofun⟩
  attr := by
    refine reads_attr_of (tracks_isIn s) fun c d hc hd style name value hbare => ?_
    refine ⟨⟨hc.isBoundary, hd.isBoundary⟩, nofun, ?_⟩
    rintro _ _ _ ⟨⟩
    exact hbare rfl

end Grammar

/-! ## Lists of a node -/

namespace Kind

def hasName : Kind → Bool
  | .element _ _ | .selfClosing | .attr _ => true
  | _ => false

def hasAttributes : Kind → Bool
  | .element _ _ | .voidElement _ | .selfClosing | .rawElement _ _ _ _ => true
  | _ => false

def hasValue : Kind → Bool
  | .attr style => style != .bare
  | _ => false

def hasChildren : Kind → Bool
  | .document | .element _ _ | .block _ _ _ _ | .branch _ _ _ => true
  | _ => false

end Kind

/-- A node has something in a list only if its kind has that list. -/
structure Node.FillsOwnLists {α : Type} (n : Node α) : Prop where
  name : n.kind.hasName = false → n.name = []
  attributes : n.kind.hasAttributes = false → n.attributes = []
  value : n.kind.hasValue = false → n.value = []
  children : n.kind.hasChildren = false → n.children = []

theorem Node.Formed.fillsOwnLists {s : List Char} {B : Nat → Prop} {n : Node Unit} (h : n.Formed (Token.Sound s) B) :
    n.FillsOwnLists := by
  cases h with
  | @leaf t kind name attributes value token isLeaf ends names items values undivided =>
    cases Token.isLeaf_of_leafKind? isLeaf with
    | attr span style fragments parts =>
      refine ⟨by rintro ⟨⟩, fun _ => items.eq_nil, fun hbare => ?_, fun _ => rfl⟩
      obtain rfl : style = .bare := by simpa [Kind.hasValue] using hbare
      obtain rfl : parts = [] := token.bare rfl
      exact values.eq_nil
    | voidElement | rawElement =>
      exact ⟨fun _ => names.eq_nil, by rintro ⟨⟩, fun _ => values.eq_nil, fun _ => rfl⟩
    | selfClosing => exact ⟨by rintro ⟨⟩, by rintro ⟨⟩, fun _ => values.eq_nil, fun _ => rfl⟩
    | text | frontMatter | comment | doctype | drop | rawTag | tag =>
      exact ⟨fun _ => names.eq_nil, fun _ => items.eq_nil, fun _ => values.eq_nil, fun _ => rfl⟩
  | document | block | branched | branch => exact ⟨fun _ => rfl, fun _ => rfl, fun _ => rfl, by rintro ⟨⟩⟩
  | element => exact ⟨by rintro ⟨⟩, by rintro ⟨⟩, fun _ => rfl, by rintro ⟨⟩⟩

/-! ## Open frames -/

def Frame.isContainer (f : Frame) : Bool :=
  f.node.kind.hasChildren && f.branch.all (·.kind.hasChildren)

namespace Frame

theorem isContainer_push (f : Frame) (n : Node Unit) : (f.push n).isContainer = f.isContainer := by
  obtain ⟨node, branch⟩ := f
  cases branch <;> rfl

theorem isContainer_reach (f : Frame) (stop : Nat) : (f.reach stop).isContainer = f.isContainer := by
  obtain ⟨node, branch⟩ := f
  cases branch <;> rfl

end Frame

namespace Nesting

variable {s s' : Nesting}

/-- Everything that is open has children. -/
def HoldsContainers (s : Nesting) : Prop :=
  ∀ f ∈ s.pending, f.isContainer = true

theorem HoldsContainers.leaf (h : s.HoldsContainers) (n : Node Unit) : (s.leaf n).HoldsContainers := by
  obtain ⟨finished, pending⟩ := s
  cases pending with
  | nil => exact h
  | cons f fs =>
    obtain ⟨hf, hfs⟩ := List.forall_mem_cons.1 h
    refine List.forall_mem_cons.2 ⟨?_, hfs⟩
    rwa [Frame.isContainer_push, Frame.isContainer_reach]

theorem HoldsContainers.enter (h : s.HoldsContainers) {f : Frame} (hf : f.isContainer = true) :
    (s.enter f).HoldsContainers := by
  obtain ⟨finished, pending⟩ := s
  cases pending with
  | nil => exact List.forall_mem_cons.2 ⟨hf, h⟩
  | cons g gs =>
    obtain ⟨hg, hgs⟩ := List.forall_mem_cons.1 h
    refine List.forall_mem_cons.2 ⟨hf, List.forall_mem_cons.2 ⟨?_, hgs⟩⟩
    rwa [Frame.isContainer_reach]

theorem HoldsContainers.leave (n : Node Unit) {around : List Frame} (h : ∀ f ∈ around, f.isContainer = true) :
    (s.leave n around).HoldsContainers := by
  cases around with
  | nil => exact h
  | cons f fs =>
    obtain ⟨hf, hfs⟩ := List.forall_mem_cons.1 h
    refine List.forall_mem_cons.2 ⟨?_, hfs⟩
    rwa [Frame.isContainer_push]

theorem HoldsContainers.add {t : Token} (h : s.HoldsContainers) (hadd : s.add t = .ok s') : s'.HoldsContainers := by
  cases t with
  | text | frontMatter | comment | doctype | drop | rawTag =>
    cases hadd
    exact h.leaf _
  | voidElement | rawElement =>
    obtain ⟨_, _, hadd⟩ := bind_eq_ok.1 hadd
    obtain ⟨_, _, hadd⟩ := bind_eq_ok.1 hadd
    cases hadd
    exact h.leaf _
  | selfClosing | attr =>
    obtain ⟨_, _, hadd⟩ := bind_eq_ok.1 hadd
    obtain ⟨_, _, hadd⟩ := bind_eq_ok.1 hadd
    obtain ⟨_, _, hadd⟩ := bind_eq_ok.1 hadd
    obtain ⟨_, _, hadd⟩ := bind_eq_ok.1 hadd
    cases hadd
    exact h.leaf _
  | openTag =>
    obtain ⟨_, _, hadd⟩ := bind_eq_ok.1 hadd
    obtain ⟨_, _, hadd⟩ := bind_eq_ok.1 hadd
    obtain ⟨_, _, hadd⟩ := bind_eq_ok.1 hadd
    obtain ⟨_, _, hadd⟩ := bind_eq_ok.1 hadd
    cases hadd
    exact h.enter rfl
  | blockOpen d name markup =>
    cases hadd
    refine h.enter ?_
    simp only [Frame.isContainer]
    split <;> rfl
  | closeTag span name =>
    obtain ⟨n, fs, opener, closer, hpending, -, -, rfl⟩ := closeElement_ok hadd
    rw [HoldsContainers, hpending] at h
    exact .leave _ (List.forall_mem_cons.1 h).2
  | blockClose d name =>
    obtain ⟨f, fs, markup, opener, old, hpending, -, rfl⟩ := closeBlock_ok hadd
    rw [HoldsContainers, hpending] at h
    exact .leave _ (List.forall_mem_cons.1 h).2
  | tag d name markup =>
    rw [Nesting.add] at hadd
    split at hadd
    · obtain ⟨n, b, fs, hpending, rfl⟩ := nextBranch_ok hadd
      rw [HoldsContainers, hpending] at h
      obtain ⟨hf, hfs⟩ := List.forall_mem_cons.1 h
      refine List.forall_mem_cons.2 ⟨?_, hfs⟩
      simp only [Frame.isContainer, Bool.and_eq_true] at hf
      exact Bool.and_eq_true_iff.2 ⟨hf.1, rfl⟩
    · cases hadd
      exact h.leaf _

/-- **What is open always has children**, whatever tokens came before. -/
theorem HoldsContainers.addAll {ts : List Token} (h : s.HoldsContainers) (hadd : s.addAll ts = .ok s') :
    s'.HoldsContainers := by
  induction ts generalizing s with
  | nil =>
    cases hadd
    exact h
  | cons t ts ih =>
    rw [Nesting.addAll] at hadd
    obtain ⟨s₁, ht, hts⟩ := bind_eq_ok.1 hadd
    exact ih (h.add ht) hts

end Nesting

/-! ## Bodies -/

/-- What is between the two ends of an element or a tag. -/
def Node.body? {α : Type} (n : Node α) : Option Span :=
  match n.kind with
  | .element opener closer => some ⟨opener.stop, closer.start⟩
  | .block _ _ opener closer => some ⟨opener.span.stop, (closer.map (·.span.start)).getD n.span.stop⟩
  | _ => none

namespace Node

/-- The body of a node starts behind the start of the node, and the children of the node stand in it. -/
def EnclosesBody {α : Type} (n : Node α) : Prop :=
  ∀ body ∈ n.body?, n.span.start < body.start ∧ body.start ≤ body.stop ∧ ∀ c ∈ n.children, body.start ≤ c.span.start

theorem body?_of_leafKind? {t : Token} {kind : Kind} (h : t.leafKind? = some kind)
    (name attributes value children : List (Node Unit)) :
    body? ⟨(), t.span, kind, name, attributes, value, children⟩ = none := by
  cases Token.isLeaf_of_leafKind? h <;> rfl

theorem enclosesBody_of_none {n : Node Unit} (h : n.body? = none) : n.EnclosesBody := by
  rw [EnclosesBody, h]
  exact nofun

theorem enclosesBody_of_inside {n : Node Unit} {body : Span} (hbody : n.body? = some body)
    (hstart : n.span.start < body.start) (hchildren : Inside body.start body.stop n.children) : n.EnclosesBody := by
  intro b hb
  obtain rfl : body = b := by simpa [hbody] using hb
  exact ⟨hstart, hchildren.1.le, fun c hc => (hchildren.bounds hc).1⟩

end Node

/-- **Elements and tags enclose their bodies.** -/
theorem Derives.enclosesBody {phrase : Phrase} {ts : List Token} {ns : List (Node Unit)} (h : Derives phrase ts ns)
    {first start stop : Nat} (hphrase : phrase.Spans first start stop) (hts : Token.Inside start stop ts) :
    ∀ n ∈ ns, ∀ m ∈ n.preorder, m.EnclosesBody := by
  induction h generalizing first start stop with
  | nil => exact fun _ hn => nomatch hn
  | cons _ _ ih ih' =>
    obtain rfl : first = start := hphrase
    obtain ⟨m, hts, hus⟩ := hts.split
    exact List.forall_mem_cons.2 ⟨fun m hm => ih rfl hts _ (List.mem_singleton_self _) m hm, ih' rfl hus⟩
  | @leaf t kind name attributes value isLeaf _ _ _ ih ih' ih'' =>
    obtain ⟨-, -, ht, -⟩ := hts.uncons
    obtain ⟨-, hname, hattributes, hvalue, hnames, hitems, hvalues⟩ := ht
    refine Node.forall_preorder_single (Node.enclosesBody_of_none (Node.body?_of_leafKind? isLeaf ..)) ?_
    simp only [Node.members, List.append_nil]
    exact List.forall_mem_append.2 ⟨List.forall_mem_append.2 ⟨ih rfl ⟨hname, hnames⟩, ih' rfl ⟨hattributes, hitems⟩⟩,
      ih'' rfl ⟨hvalue, hvalues⟩⟩
  | element _ _ inside _ _ ihname ihattributes ihbody _ =>
    obtain ⟨-, hlt, ht, hbody, -, -⟩ := hts.between
    obtain ⟨-, hname, hattributes, -, hnames, hitems, -⟩ := ht
    refine Node.forall_preorder_single (Node.enclosesBody_of_inside rfl hlt (inside.inside rfl hbody)) ?_
    simp only [Node.members, List.append_nil]
    exact List.forall_mem_append.2 ⟨List.forall_mem_append.2 ⟨ihname rfl ⟨hname, hnames⟩,
      ihattributes rfl ⟨hattributes, hitems⟩⟩, ihbody rfl hbody⟩
  | block _ inside ihbody =>
    obtain ⟨-, hlt, -, hbody, -, -⟩ := hts.between
    exact Node.forall_preorder_single (Node.enclosesBody_of_inside rfl hlt (inside.inside rfl hbody)) (ihbody rfl hbody)
  | branched _ inside ihbody =>
    obtain ⟨-, hlt, -, hbody, -, -⟩ := hts.between
    have hbranches := inside.inside ⟨rfl, rfl, Nat.le_refl _, rfl⟩ hbody
    exact Node.forall_preorder_single (Node.enclosesBody_of_inside rfl hlt hbranches)
      (ihbody ⟨rfl, rfl, Nat.le_refl _, rfl⟩ hbody)
  | lastBranch _ ihbody =>
    obtain ⟨rfl, rfl, -, rfl⟩ := hphrase
    exact Node.forall_preorder_single (Node.enclosesBody_of_none rfl) (ihbody rfl hts)
  | @nextBranch name markup opener _ _ _ children _ _ _ next _ _ _ ihbody ihrest =>
    obtain ⟨rfl, rfl, -, rfl⟩ := hphrase
    obtain ⟨m, hbody, hrest⟩ := hts.split
    obtain ⟨-, hlt, -, hrest⟩ := hrest.uncons
    have hbranch : ∀ n ∈ [Node.branchOf name markup opener children next.span.start], ∀ m ∈ n.preorder,
        m.EnclosesBody := Node.forall_preorder_single (Node.enclosesBody_of_none rfl) (ihbody rfl hbody)
    exact List.forall_mem_cons.2 ⟨hbranch _ (List.mem_singleton_self _), ihrest ⟨rfl, rfl, Nat.le_of_lt hlt, rfl⟩ hrest⟩

/-! ## Nodes of a template -/

/-- All that printing asks of a node: its range and its body can be cut out of the source, what it holds starts no
earlier than it does, and what stands in its body starts later. -/
structure Node.Printable {α : Type} (source : List Char) (n : Node α) : Prop where
  ends : n.span.EndsIn (Text.IsBoundary source)
  le : n.span.start ≤ n.span.stop
  body : ∀ b ∈ n.body?, (Text.slice? source b).isSome = true
  children : ∀ c ∈ n.children, n.span.start ≤ c.span.start
  deeper : n.body?.isSome = true → ∀ c ∈ n.children, n.span.start < c.span.start
  statements : ∀ {name markup d}, n.kind = .tag name markup d → n.span.start + markup.statementCount ≤ n.span.stop

namespace Node

variable {s : List Char} {n : Node Unit}

theorem Formed.endsIn_body {P : Token → Prop} {B : Nat → Prop} (h : n.Formed P B) : ∀ b ∈ n.body?, b.EndsIn B := by
  have hblock {span : Span} {name : String} {markup : Markup} {opener : Delimiter} {closer : Option Delimiter}
      {children : List (Node Unit)} (ends : span.EndsIn B) (opens : opener.span.EndsIn B)
      (closes : ∀ c ∈ closer, c.span.EndsIn B) :
      ∀ b ∈ body? (⟨(), span, .block name markup opener closer, [], [], [], children⟩ : Node Unit), b.EndsIn B := by
    rintro b ⟨⟩
    cases closer with
    | none => exact ⟨opens.2, ends.2⟩
    | some d => exact ⟨opens.2, (closes d rfl).1⟩
  cases h with
  | document | branch => exact nofun
  | leaf _ isLeaf =>
    rw [body?_of_leafKind? isLeaf]
    exact nofun
  | element _ opens closes =>
    rintro b ⟨⟩
    exact ⟨opens.2, closes.1⟩
  | block ends opens closes => exact hblock ends opens closes
  | branched ends opens closes => exact hblock ends opens closes

theorem Formed.statements {B : Nat → Prop} (h : n.Formed (Token.Sound s) B) {name : String} {markup : Markup}
    {d : Delimiter} (hkind : n.kind = .tag name markup d) : n.span.start + markup.statementCount ≤ n.span.stop := by
  cases h with
  | @leaf t kind _ _ _ token isLeaf =>
    obtain rfl : kind = .tag name markup d := hkind
    obtain rfl := Token.tag_of_leafKind? isLeaf
    exact token.statements rfl
  | document | element | block | branched | branch => cases hkind

end Node

theorem sound_of_ofSource {source : String} {tokens : List Token} (h : Token.ofSource source = .ok tokens) :
    ∀ t ∈ tokens, t.Everywhere (Token.Sound source.toList) :=
  (Grammar.soundRules source.toList).ofSource (Peg.forward_readNested _) ⟨[], rfl, rfl⟩ h

theorem Token.Everywhere.isSome_slice? {s : List Char} {t : Token} (h : t.Everywhere (Token.Sound s)) (ht : t.Placed) :
    t.Everywhere fun u => (Text.slice? s u.span).isSome = true := by
  induction h with
  | mk own _ _ _ ihname ihattributes ihvalue =>
    obtain ⟨hlt, -, -, -, hname, hattributes, hvalue⟩ := ht
    exact ⟨Text.isSome_slice? own.ends.1 own.ends.2 (Nat.le_of_lt hlt), fun u hu => ihname u hu (hname u hu),
      fun u hu => ihattributes u hu (hattributes u hu), fun u hu => ihvalue u hu (hvalue u hu)⟩

theorem isSome_slice?_of_ofSource {source : String} {tokens : List Token} (h : Token.ofSource source = .ok tokens) :
    ∀ t ∈ tokens, t.Everywhere fun u => (Text.slice? source.toList u.span).isSome = true :=
  fun t ht => (sound_of_ofSource h t ht).isSome_slice? ((Token.ofSource_tiles h).inside.2 t ht)

theorem formed_sound_of_parse {source : String} {strictness : Strictness} {d : Document Unit}
    (h : Document.parse source strictness = .ok d) :
    ∀ n ∈ d.root.preorder, n.Formed (Token.Sound source.toList) (Text.IsBoundary source.toList) := by
  obtain ⟨tokens, htokens⟩ := ofSource_of_parse h
  exact formed_of_parse (fun _ ht => ht.ends) ⟨Text.isBoundary_zero _, Text.isBoundary_byteSize _⟩ htokens
    (sound_of_ofSource htokens) h

theorem isSome_slice?_of_parse {source : String} {strictness : Strictness} {d : Document Unit}
    (h : Document.parse source strictness = .ok d) {n : Node Unit} (hn : n ∈ d.root.preorder) :
    (Text.slice? source.toList n.span).isSome = true := by
  have hends := (formed_sound_of_parse h n hn).ends
  have hopener := (isPlaced_of_parse h n hn).opener
  exact Text.isSome_slice? hends.1 hends.2 (Nat.le_trans hopener.1 hopener.2)

/-- **The nodes of a well nested template can be printed.** -/
theorem printable_of_parse {source : String} {d : Document Unit} (h : Document.parse source = .ok d) :
    ∀ n ∈ d.root.preorder, n.Printable source.toList := by
  obtain ⟨tokens, htokens⟩ := ofSource_of_parse h
  obtain ⟨nodes, hderives, hd⟩ := derives_of_parse htokens h
  have hinside := (Token.ofSource_tiles htokens).inside
  rw [Nat.zero_add] at hinside
  have hbodies : ∀ n ∈ [d.root], ∀ m ∈ n.preorder, m.EnclosesBody := by
    rw [hd]
    exact Node.forall_preorder_single (Node.enclosesBody_of_none rfl) (hderives.enclosesBody rfl hinside)
  intro n hn
  have hformed := formed_sound_of_parse h n hn
  obtain ⟨hopener, -, hcovers⟩ := isPlaced_of_parse h n hn
  have hencloses := hbodies _ (List.mem_singleton_self _) n hn
  refine ⟨hformed.ends, Nat.le_trans hopener.1 hopener.2, fun b hb => ?_, fun c hc => ?_, fun hbody c hc => ?_,
    hformed.statements⟩
  · obtain ⟨hstart, hstop⟩ := hformed.endsIn_body b hb
    exact Text.isSome_slice? hstart hstop (hencloses b hb).2.1
  · exact (hcovers c (List.mem_append_right _ hc)).1
  · obtain ⟨b, hb⟩ := Option.isSome_iff_exists.1 hbody
    obtain ⟨hlt, -, hchildren⟩ := hencloses b hb
    exact Nat.lt_of_lt_of_le hlt (hchildren c hc)

end LiquidTemplate
