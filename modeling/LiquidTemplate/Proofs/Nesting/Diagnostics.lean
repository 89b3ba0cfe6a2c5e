import LiquidTemplate.Proofs.Grammar.Stopped
import LiquidTemplate.Proofs.Text.Positions
import LiquidTemplate.Proofs.Text.Slices

/-!
# Diagnostics

The diagnostic of a fault shows the line that the fault starts in, under the number that its position has
(`Diagnostic.Describes`). There is one for every fault that starts between two characters or behind the end of the
source, wherever it stops, and the faults of a template are of this kind: their ranges are ranges of the template
(`Span.LiesIn`). The line can be cut out by the offsets of the line feeds around it (`lineSlice?_eq`).
-/

namespace LiquidTemplate

/-! ## The line around an offset -/

namespace Text

/-- A text is a line up to the carriage returns at its end. -/
def IsLineText (line cs : List Char) : Prop :=
  cs.getLast? ≠ some '\r' ∧ ∃ k, line = cs ++ List.replicate k '\r'

theorem isLineText_dropWhile (line : List Char) : IsLineText line (line.reverse.dropWhile (· == '\r')).reverse := by
  refine ⟨?_, (line.reverse.takeWhile (· == '\r')).length, ?_⟩
  · rw [List.getLast?_reverse]
    intro h
    have hne := List.head?_dropWhile_not (· == '\r') line.reverse
    rw [h] at hne
    cases hne
  · have hreturns : line.reverse.takeWhile (· == '\r') =
        List.replicate (line.reverse.takeWhile (· == '\r')).length '\r' :=
      List.eq_replicate_iff.2 ⟨rfl, fun c hc => by simpa using List.mem_takeWhile_imp hc⟩
    have hsplit := congrArg List.reverse (List.takeWhile_append_dropWhile (p := (· == '\r')) (l := line.reverse))
    rw [List.reverse_reverse, List.reverse_append, hreturns, List.reverse_replicate] at hsplit
    exact hsplit.symm

theorem exists_cut {s : List Char} {offset : Nat} (h : IsBoundary s offset ∨ byteSize s ≤ offset) :
    ∃ a b, s = a ++ b ∧ min offset (byteSize s) = byteSize a ∧ charsBefore s offset = a := by
  rcases h with ⟨a, b, rfl, rfl⟩ | hle
  · refine ⟨a, b, rfl, Nat.min_eq_left ?_, charsBefore_append a b⟩
    rw [byteSize_append]
    exact Nat.le_add_right _ _
  · exact ⟨s, [], (List.append_nil s).symm, Nat.min_eq_right hle, charsBefore_of_le hle⟩

def firstFeed? : List Char → Option Nat
  | [] => none
  | c :: cs => if c == '\n' then some 0 else (firstFeed? cs).map (c.utf8Size + ·)

/-- The offset of the last line feed of a text that is read from its end. -/
def lastFeed? : List Char → Option Nat
  | [] => none
  | c :: cs => if c == '\n' then some (byteSize cs) else lastFeed? cs

theorem byteSize_takeWhile_feed (cs : List Char) :
    byteSize (cs.takeWhile (· != '\n')) = (firstFeed? cs).getD (byteSize cs) := by
  induction cs with
  | nil => rfl
  | cons c cs ih =>
    by_cases hc : c = '\n'
    · subst hc
      rfl
    · rw [List.takeWhile_cons_of_pos (by simpa using hc), byteSize, ih, firstFeed?, if_neg (by simpa using hc)]
      cases firstFeed? cs <;> rfl

theorem byteSize_dropWhile_feed (cs : List Char) :
    byteSize (cs.dropWhile (· != '\n')) = ((lastFeed? cs).map (· + 1)).getD 0 := by
  induction cs with
  | nil => rfl
  | cons c cs ih =>
    by_cases hc : c = '\n'
    · subst hc
      exact Nat.add_comm 1 (byteSize cs)
    · rw [List.dropWhile_cons_of_pos (by simpa using hc), ih, lastFeed?, if_neg (by simpa using hc)]

theorem byteSize_reverse (cs : List Char) : byteSize cs.reverse = byteSize cs := by
  induction cs with
  | nil => rfl
  | cons c cs ih => simp [byteSize, ih, Nat.add_comm]

end Text

/-- Where an offset cuts a text in two, the line around it is made of what touches the cut. -/
theorem exists_lineAround? {a b : List Char} {offset : Nat}
    (h : min offset (Text.byteSize (a ++ b)) = Text.byteSize a) : ∃ cs, lineAround? (a ++ b) offset = some cs ∧
      Text.IsLineText ((a.reverse.takeWhile (· != '\n')).reverse ++ b.takeWhile (· != '\n')) cs := by
  refine ⟨_, ?_, Text.isLineText_dropWhile _⟩
  simp only [lineAround?, h, Text.takeBytes?_append, Text.dropBytes?_append]

/-- The line around an offset as a range: it starts behind the last line feed before the offset and ends at the first
one from there on. -/
def lineSlice? (source : List Char) (offset : Nat) : Option (List Char) := do
  let cut := min offset (Text.byteSize source)
  let before ← Text.takeBytes? source cut
  let after ← Text.dropBytes? source cut
  let start := ((Text.lastFeed? before.reverse).map (· + 1)).getD 0
  let stop := ((Text.firstFeed? after).map (offset + ·)).getD (Text.byteSize source)
  let line ← Text.slice? source ⟨start, stop⟩
  return (line.reverse.dropWhile (· == '\r')).reverse

theorem slice?_line {a b : List Char} {offset : Nat} (h : min offset (Text.byteSize (a ++ b)) = Text.byteSize a) :
    Text.slice? (a ++ b) ⟨((Text.lastFeed? a.reverse).map (· + 1)).getD 0,
      ((Text.firstFeed? b).map (offset + ·)).getD (Text.byteSize (a ++ b))⟩ =
        some ((a.reverse.takeWhile (· != '\n')).reverse ++ b.takeWhile (· != '\n')) := by
  have hstop : ((Text.firstFeed? b).map (offset + ·)).getD (Text.byteSize (a ++ b)) =
      Text.byteSize a + Text.byteSize (b.takeWhile (· != '\n')) := by
    rw [Text.byteSize_takeWhile_feed]
    cases b with
    | nil => simp [Text.firstFeed?, Text.byteSize]
    | cons c cs =>
      -- the offset is not behind the end, since there is a character behind the cut
      obtain ⟨k, hk⟩ := Text.exists_byteSize_cons c cs
      rw [Text.byteSize_append, hk] at h ⊢
      have hoffset : offset = Text.byteSize a := by omega
      cases Text.firstFeed? (c :: cs) with
      | none => rfl
      | some i => rw [hoffset]; rfl
  have hsplit : a ++ b = (a.reverse.dropWhile (· != '\n')).reverse ++
      ((a.reverse.takeWhile (· != '\n')).reverse ++ b.takeWhile (· != '\n') ++ b.dropWhile (· != '\n')) := by
    rw [List.append_assoc, List.takeWhile_append_dropWhile, ← List.append_assoc, ← List.reverse_append,
      List.takeWhile_append_dropWhile, List.reverse_reverse]
  have hsize : Text.byteSize a = Text.byteSize (a.reverse.dropWhile (· != '\n')).reverse +
      Text.byteSize (a.reverse.takeWhile (· != '\n')).reverse := by
    rw [← Text.byteSize_append, ← List.reverse_append, List.takeWhile_append_dropWhile, List.reverse_reverse]
  rw [hstop, ← Text.byteSize_dropWhile_feed, ← Text.byteSize_reverse (List.dropWhile _ _), hsize, Nat.add_assoc,
    ← Text.byteSize_append, hsplit, Text.slice?_append]

/-- **Both ends of the line around an offset are offsets of the text**, so the line can be cut out by them. -/
theorem lineSlice?_eq (source : List Char) (offset : Nat) : lineSlice? source offset = lineAround? source offset := by
  cases hbefore : Text.takeBytes? source (min offset (Text.byteSize source)) with
  | none =>
    simp only [lineSlice?, lineAround?, hbefore]
    rfl
  | some a =>
    obtain ⟨b, rfl, hcut⟩ := Text.exists_of_takeBytes? hbefore
    simp only [lineSlice?, lineAround?, hcut, Text.takeBytes?_append, Text.dropBytes?_append, Option.bind_eq_bind,
      Option.bind_some, slice?_line hcut]
    rfl

theorem isSome_lineSlice? {source : List Char} {offset : Nat}
    (h : Text.IsBoundary source offset ∨ Text.byteSize source ≤ offset) : (lineSlice? source offset).isSome = true := by
  obtain ⟨a, b, rfl, hcut, -⟩ := Text.exists_cut h
  obtain ⟨cs, hcs, -⟩ := exists_lineAround? hcut
  rw [lineSlice?_eq, hcs]
  rfl

/-! ## Diagnostics of faults -/

/-- A diagnostic with the message of a fault, the position where it starts and one that is not before that, and the line
of the first position. -/
structure Diagnostic.Describes (source : String) (f : Fault) (d : Diagnostic) : Prop where
  message : d.message = f.message
  start : d.start = Position.ofOffset source f.span.start
  stop : f.span.start ≤ f.span.stop → d.stop = Position.ofOffset source f.span.stop
  ordered : d.start ≤ d.stop
  excerpt : ∃ n line, d.start.line = n + 1 ∧ (Text.splitChars (· == '\n') source.toList)[n]? = some line ∧
    Text.IsLineText line d.excerpt.toList

theorem exists_describes {source : String} {f : Fault}
    (h : Text.IsBoundary source.toList f.span.start ∨ Text.byteSize source.toList ≤ f.span.start) :
    ∃ d, f.diagnostic? source = some d ∧ d.Describes source f := by
  obtain ⟨a, b, hsource, hcut, hbefore⟩ := Text.exists_cut h
  have hline : (Position.ofOffset source f.span.start).line = a.count '\n' + 1 := by
    rw [Position.line_ofOffset, hbefore, Nat.add_comm]
  rw [hsource] at hcut
  obtain ⟨cs, hcs, htext⟩ := exists_lineAround? hcut
  have hpiece := Text.splitChars_getElem?_count '\n' a b
  rw [← hsource] at hcs hpiece
  rw [Fault.diagnostic?, hcs]
  refine ⟨_, rfl, rfl, rfl, ?_, ?_, _, _, hline, hpiece, ?_⟩
  · intro hle
    rw [Nat.max_eq_right hle]
  · exact Position.ofOffset_mono source (Nat.le_max_left _ _)
  · rw [String.toList_ofList]
    exact htext

/-! ## The ranges of faults -/

/-- A range of a text, with its ends between two characters. -/
structure Span.LiesIn (s : List Char) (r : Span) : Prop where
  start_le : r.start ≤ r.stop
  stop_le : r.stop ≤ Text.byteSize s
  ends : r.EndsIn (Text.IsBoundary s)

theorem Span.liesIn_point {s : List Char} {offset : Nat} (h : Text.IsBoundary s offset) :
    (Span.point offset).LiesIn s :=
  ⟨Nat.le_refl _, h.le, h, h⟩

theorem Span.liesIn_of_slice? {s : List Char} {r : Span} (h : (Text.slice? s r).isSome = true) : r.LiesIn s := by
  obtain ⟨w, hw⟩ := Option.isSome_iff_exists.1 h
  obtain ⟨a, b, rfl, rfl⟩ := Text.exists_of_slice? hw
  have hstop : Text.IsBoundary (a ++ (w ++ b)) (Text.byteSize a + Text.byteSize w) :=
    ⟨a ++ w, b, (List.append_assoc a w b).symm, Text.byteSize_append a w⟩
  exact ⟨Nat.le_add_right _ _, hstop.le, ⟨a, w ++ b, rfl, rfl⟩, hstop⟩

theorem Token.ListIn.everywhere {tokens ts : List Token} {P : Token → Prop} (h : ListIn tokens ts)
    (htokens : ∀ t ∈ tokens, t.Everywhere P) : ∀ t ∈ ts, t.Everywhere P := by
  induction h with
  | template => exact htokens
  | attributes _ mem ih =>
    cases ih _ mem with
    | mk _ _ attributes _ => exact attributes
  | value _ mem ih =>
    cases ih _ mem with
    | mk _ _ _ value => exact value

theorem StillOpen.exists_opener {ts : List Token} {item : OpenItem} (h : StillOpen ts item) :
    ∃ t ∈ ts, item.span = t.span := by
  obtain ⟨earlier, opener, body, closer, n, rfl, hitem, -⟩ := h
  refine ⟨opener, by simp, ?_⟩
  cases opener with
  | openTag | blockOpen => cases hitem; rfl
  | _ => cases hitem

theorem NestingFault.LocatedIn.exists_token {tokens : List Token} {fault : NestingFault} (h : fault.LocatedIn tokens) :
    ∃ ts t, Token.ListIn tokens ts ∧ t ∈ ts ∧ fault.span = t.span := by
  rcases h with ⟨before, t, after, closer, h⟩ | ⟨ts, item, h⟩
  · exact ⟨_, t, h.list, by simp, h.span⟩
  · obtain ⟨t, ht, hspan⟩ := h.isOpen.exists_opener
    exact ⟨ts, t, h.list, ht, by rw [h.fault_eq, hspan]⟩

theorem Document.liesIn_of_parse {source : String} {strictness : Strictness} {f : Fault}
    (h : Document.parse source strictness = .error f) : f.span.LiesIn source.toList := by
  unfold Document.parse at h
  split at h
  next attempts hsource =>
    cases h
    exact Span.liesIn_point (Grammar.notes_of_run (Token.run_of_ofSource_error hsource)).place
  next tokens hsource =>
    split at h
    next fault hfault =>
      cases h
      obtain ⟨ts, t, hlist, ht, hspan⟩ := (Nesting.locates_of_ofSource hsource strictness fault hfault).exists_token
      have hslice := (hlist.everywhere (isSome_slice?_of_ofSource hsource) t ht).here
      rw [Fault.span, hspan]
      exact Span.liesIn_of_slice? hslice
    · cases h

/-- **Every fault that starts between two characters or behind the end has a diagnostic with the line it starts in**,
also one that stops before it starts; and the faults of a template point at ranges of the template, so they all have
one. -/
theorem fault_diagnosed (source : String) :
    (∀ f : Fault, Text.IsBoundary source.toList f.span.start ∨ Text.byteSize source.toList ≤ f.span.start →
      ∃ d, f.diagnostic? source = some d ∧ d.Describes source f) ∧
    ∀ strictness f, Document.parse source strictness = .error f →
      f.span.LiesIn source.toList ∧ ∃ d, f.diagnostic? source = some d ∧ d.Describes source f := by
  refine ⟨fun f h => exists_describes h, fun strictness f h => ?_⟩
  have hlies := Document.liesIn_of_parse h
  exact ⟨hlies, exists_describes (.inl hlies.ends.1)⟩

/-- A closing tag behind characters of two bytes, in a line that ends in two carriage returns; and a fault behind the
end that stops before it starts. -/
theorem diagnosed_behind_accents :
    (Document.parse "é\r\n<p>ç</b>\r\r\n" = .error (.nesting ⟨.mismatched "b", ⟨9, 13⟩, some ⟨"p", ⟨4, 7⟩⟩⟩) ∧
      ∃ d, Fault.diagnostic? "é\r\n<p>ç</b>\r\r\n" (.nesting ⟨.mismatched "b", ⟨9, 13⟩, some ⟨"p", ⟨4, 7⟩⟩⟩) = some d ∧
        d.Describes "é\r\n<p>ç</b>\r\r\n" (.nesting ⟨.mismatched "b", ⟨9, 13⟩, some ⟨"p", ⟨4, 7⟩⟩⟩)) ∧
    ∃ d, Fault.diagnostic? "é\nç" (.nesting ⟨.unterminated, ⟨9, 3⟩, none⟩) = some d ∧
      d.Describes "é\nç" (.nesting ⟨.unterminated, ⟨9, 3⟩, none⟩) := by
  have hparse : Document.parse "é\r\n<p>ç</b>\r\r\n" =
      .error (.nesting ⟨.mismatched "b", ⟨9, 13⟩, some ⟨"p", ⟨4, 7⟩⟩⟩) := eq_error_of (by decide +kernel)
  exact ⟨⟨hparse, ((fault_diagnosed _).2 _ _ hparse).2⟩, (fault_diagnosed _).1 _ (.inr (by decide +kernel))⟩

end LiquidTemplate
