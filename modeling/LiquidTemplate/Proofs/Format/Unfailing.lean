import LiquidTemplate.Proofs.Grammar.Unstuck
import LiquidTemplate.Proofs.Grammar.Written
import LiquidTemplate.Proofs.Print.Unfailing
import LiquidTemplate.Proofs.Whitespace.Annotated

/-!
# Formatting never fails on the way

No step on the way from a template to its formatted text relies on something that may be missing. Reading finds in each
place what the place is for, nesting puts nodes only where there is a list for them, annotating refers only to nodes
that exist, and printing cuts only ranges out of the source that can be cut out. The main statement is
`format_unfailing`.
-/

namespace LiquidTemplate

/-! ## Printing annotated documents -/

theorem Node.Printable.annotated {s : Sensitivity} {source : List Char} {m : Node Unit} {n : Node Facts}
    (h : m.Printable source) (hannotates : m.Annotates s source n) : n.Printable source := by
  have hspan := hannotates.span
  have hkind := hannotates.kind
  have hbody : n.body? = m.body? := by rw [body?, body?, hkind, hspan]
  have hchildren : ∀ c ∈ n.children, ∃ c' ∈ m.children, c.span = c'.span := by
    intro c hc
    obtain ⟨c', hc', hannotates⟩ := Annotates.exists_of_mem hannotates.children hc
    exact ⟨c', hc', hannotates.span⟩
  constructor
  · rw [hspan]
    exact h.ends
  · rw [hspan]
    exact h.le
  · rw [hbody]
    exact h.body
  · intro c hc
    obtain ⟨c', hc', hspan'⟩ := hchildren c hc
    rw [hspan, hspan']
    exact h.children c' hc'
  · intro hsome c hc
    obtain ⟨c', hc', hspan'⟩ := hchildren c hc
    rw [hspan, hspan']
    exact h.deeper (hbody ▸ hsome) c' hc'
  · intro name markup d hn
    rw [hspan]
    exact h.statements (hkind ▸ hn)

theorem printable_annotate {source : String} {d : Document Unit} (h : Document.parse source = .ok d)
    (s : Sensitivity) : ∀ n ∈ (d.annotate s).root.preorder, n.Printable source.toList := by
  intro n hn
  obtain ⟨m, hm, hannotates⟩ := Node.exists_of_mem_preorder_withFacts d.root none none none none hn
  rw [source_of_parse h] at hannotates
  exact (printable_of_parse h m hm).annotated hannotates

section

variable {source : String} {o : Options} {limit : Nat} (hwidth : 0 < o.indentWidth)
  (hlimit : o.indentWidth * (Text.byteSize source.toList + 1) ≤ limit) (formatter : CodeFormatter)

include hwidth hlimit

/-- Each step of printing and rendering a document is possible. -/
theorem Document.format?_eq {d : Document Unit} (h : Document.parse source = .ok d) :
    d.format? limit o formatter = some (d.format o formatter) := by
  unfold Document.format? Document.format
  split
  · rfl
  · rw [source_of_parse h, Document.print]
    have hprintable := printable_annotate h o.sensitivity
    obtain ⟨hrun, hdoc⟩ := @printNode?_follows limit ⟨source.toList, o⟩ hlimit formatter 0 none _ hprintable
      (Nat.zero_le _) {}
    have hsource : (d.annotate o.sensitivity).source = source := source_of_parse h
    rw [hrun, hsource, Option.bind_eq_bind, Option.bind_some]
    generalize StateT.run (printNode _ _ _ _ _) _ = printed at hdoc ⊢
    obtain ⟨doc, session⟩ := printed
    rw [Nat.zero_add] at hdoc
    dsimp only
    cases session.failure with
    | some message => rfl
    | none =>
      dsimp only
      rw [Doc.render?_eq hwidth hdoc, if_neg (Nat.ne_of_gt hwidth)]
      rfl

theorem format?_eq : format? limit o formatter source = some (format o formatter source) := by
  unfold format? format
  cases h : Document.parse source with
  | error fault => rfl
  | ok d => exact Document.format?_eq hwidth hlimit formatter h

end

theorem format_outcome (o : Options) (hwidth : 0 < o.indentWidth) (formatter : CodeFormatter) (source : String) :
    (∃ text, (format o formatter source).1 = .ok text) ∨
      (∃ fault, (format o formatter source).1 = .error (.template fault)) ∨
      ∃ message, (format o formatter source).1 = .error (.code message) := by
  unfold format
  cases Document.parse source with
  | error fault => exact .inr (.inl ⟨fault, rfl⟩)
  | ok d =>
    dsimp only
    unfold Document.format
    split
    · exact .inl ⟨_, rfl⟩
    · generalize StateT.run _ _ = printed
      obtain ⟨doc, session⟩ := printed
      dsimp only
      cases session.failure with
      | some message => exact .inr (.inr ⟨message, rfl⟩)
      | none =>
        dsimp only
        rw [if_neg (Nat.ne_of_gt hwidth)]
        exact .inl ⟨_, rfl⟩

/-! ## All stages -/

open Grammar in
/-- What the grammar gives to those who build tokens, markup and expressions. -/
structure Grammar.Supplies : Prop where
  /-- A match of a rule has the parts that are taken from it, and at each place something that is handled there. -/
  parts : document.EveryRule fun name atomic _ q => ∀ c, (q.read (Peg.nested expression) c).isSome = true →
    name.wantedParts.Fits (Grammar.parts atomic q c)
  comparators : comparator.Reads fun c x d => c.rest = x.symbol.toList ++ d.rest
  keywords : keyword.Reads fun c k d => c.rest = k.word.toList ++ d.rest
  strings : string.Reads fun c s d => c.rest = s.quote.char :: (s.value.toList ++ s.quote.char :: d.rest)

/-- A template is read without a step that is not possible. -/
structure ReadsThrough (source : String) : Prop where
  /-- The grammar looks for no name on an empty stack, and no repetition or nesting is cut short. -/
  stack : Peg.run? Grammar.expression Grammar.document source.toList =
    some (Peg.run Grammar.expression Grammar.document source.toList).1
  /-- The range of each token, also inside of other tokens, can be cut out of the source. -/
  tokens : ∀ {tokens}, Token.ofSource source = .ok tokens →
    ∀ t ∈ tokens, t.Everywhere fun u => (Text.slice? source.toList u.span).isSome = true
  /-- Whatever is open while tokens are nested can hold children. -/
  frames : ∀ {tokens s}, Nesting.addAll {} tokens = .ok s → s.HoldsContainers

/-- A tree that later stages can take apart. -/
structure Document.IsWhole (source : String) (d : Document Unit) : Prop where
  /-- The range of each node can be cut out of the source. -/
  slices : ∀ n ∈ d.root.preorder, (Text.slice? source.toList n.span).isSome = true
  /-- A node is only in a list that the kind of the node around it has. -/
  lists : ∀ n ∈ d.root.preorder, n.FillsOwnLists
  /-- Annotated, each node is linked to nodes that exist. -/
  links : ∀ s, ∀ e ∈ (d.annotate s).entries, ∀ k ∈ e.references, k < (d.annotate s).entries.length

/-- **No stage fails on the way from a template to its formatted text**: reading and annotating in both modes, and
printing and rendering as long as the indentation stays within the limit. -/
theorem format_unfailing (source : String) : Grammar.Supplies ∧ ReadsThrough source ∧
    (∀ strictness d, Document.parse source strictness = .ok d → d.IsWhole source) ∧
    ∀ (o : Options) (formatter : CodeFormatter) (limit : Nat), 0 < o.indentWidth →
      o.indentWidth * (Text.byteSize source.toList + 1) ≤ limit →
      format? limit o formatter source = some (format o formatter source) ∧
        ((∃ text, (format o formatter source).1 = .ok text) ∨
          (∃ fault, (format o formatter source).1 = .error (.template fault)) ∨
          ∃ message, (format o formatter source).1 = .error (.code message)) := by
  refine ⟨⟨Grammar.everyRule_document, Grammar.reads_comparator, Grammar.reads_keyword_word,
    Grammar.reads_string_marks⟩, ⟨Grammar.run?_document _, isSome_slice?_of_ofSource, ?_⟩, ?_, ?_⟩
  · intro tokens s hs
    have hnone : ({} : Nesting).HoldsContainers := fun _ hf => nomatch hf
    exact hnone.addAll hs
  · intro strictness d h
    exact ⟨fun n hn => isSome_slice?_of_parse h hn, fun n hn => (formed_sound_of_parse h n hn).fillsOwnLists,
      fun s => (d.annotate s).lt_of_mem_references⟩
  · intro o formatter limit hwidth hlimit
    exact ⟨format?_eq hwidth hlimit formatter, format_outcome o hwidth formatter source⟩

/-- A script inside of a branch, formatted with numbers of 64 bits. -/
theorem unfailing_script_in_branch :
    ∃ d, Document.parse "\x7b% if a %\x7d<script>b</script>\x7b% endif %\x7d" = .ok d ∧ d.size = 4 ∧
      d.IsWhole "\x7b% if a %\x7d<script>b</script>\x7b% endif %\x7d" ∧ 0 < ({} : Options).indentWidth ∧
      ({} : Options).indentWidth * (Text.byteSize "\x7b% if a %\x7d<script>b</script>\x7b% endif %\x7d".toList + 1)
        ≤ UInt64.size - 1 ∧
      format? (UInt64.size - 1) {} .identity "\x7b% if a %\x7d<script>b</script>\x7b% endif %\x7d" =
        some (format {} .identity "\x7b% if a %\x7d<script>b</script>\x7b% endif %\x7d") := by
  obtain ⟨d, hd, hsize⟩ := exists_eq_ok (P := fun d : Document Unit => d.size == 4)
    (x := Document.parse "\x7b% if a %\x7d<script>b</script>\x7b% endif %\x7d") (by decide +kernel)
  obtain ⟨-, -, hwhole, hformat⟩ := format_unfailing "\x7b% if a %\x7d<script>b</script>\x7b% endif %\x7d"
  obtain ⟨hsome, -⟩ := hformat {} .identity (UInt64.size - 1) (by decide) (by decide +kernel)
  exact ⟨d, hd, by simpa using hsize, hwhole .strict d hd, by decide, by decide +kernel, hsome⟩

end LiquidTemplate
