import LiquidTemplate.Proofs.Grammar.TagNames
import LiquidTemplate.Proofs.Nesting.Formed

/-!
# Where branches are

A tag whose body is divided has branches as children, at least one, and nothing else; no other list of a template
holds a branch. This is so wherever the tag stands, in a body, among attributes or in a value, and whether or not
everything is closed (`wellBranched_of_parse`).
-/

namespace LiquidTemplate

def branchedNames : List String :=
  ["if", "unless", "for", "tablerow", "case"]

/-- What branches after the first one start with. -/
def laterNames : List String :=
  ["elsif", "else", "when"]

namespace Node

def tagName? (n : Node Unit) : Option String :=
  match n.kind with
  | .tag name _ _ | .block name _ _ _ => some name
  | _ => none

def branchName? (n : Node Unit) : Option (Option String) :=
  match n.kind with
  | .branch name _ _ => some name
  | _ => none

/-- The lists of a node hold branches exactly where they should. -/
structure WellBranched (n : Node Unit) : Prop where
  branches : ∀ name ∈ n.tagName?, name ∈ branchedNames → ∃ first rest, n.children = first :: rest ∧
    first.branchName? = some none ∧ ∀ b ∈ rest, ∃ later ∈ laterNames, b.branchName? = some (some later)
  children : (∀ name ∈ n.tagName?, name ∉ branchedNames) → ∀ c ∈ n.children, c.branchName? = none
  elsewhere : ∀ c ∈ n.name ++ n.attributes ++ n.value, c.branchName? = none

variable {n : Node Unit} {ns : List (Node Unit)}

theorem branchName?_of_undivided (h : Undivided ns) : ∀ n ∈ ns, n.branchName? = none := by
  intro n hn
  have hbranch := h n hn
  rw [isBranch] at hbranch
  rw [branchName?]
  cases hkind : n.kind with
  | branch name markup opener =>
    rw [hkind] at hbranch
    cases hbranch
  | _ => rfl

theorem Divided.branchNames (h : Divided ns) : ∃ first rest, ns = first :: rest ∧
    first.branchName? = some none ∧ ∀ b ∈ rest, ∃ later ∈ laterNames, b.branchName? = some (some later) := by
  obtain ⟨first, rest, hns, ⟨markup, opener, hfirst⟩, hrest⟩ := h
  refine ⟨first, rest, hns, by simp [branchName?, hfirst], fun b hb => ?_⟩
  obtain ⟨name, markup, opener, hkind, hname⟩ := hrest b hb
  exact ⟨name, by simpa [isBranchStart, laterNames] using hname, by simp [branchName?, hkind]⟩

theorem notMem_branchedNames {t : Token} {kind : Kind} (ht : t.isBranchedLeaf = false) (h : t.leafKind? = some kind)
    (hkind : n.kind = kind) : ∀ name ∈ n.tagName?, name ∉ branchedNames := by
  intro name hname
  rw [tagName?, hkind] at hname
  cases Token.isLeaf_of_leafKind? h with
  | tag =>
    cases hname
    simpa [Token.isBranchedLeaf, isBranchedTag, branchedNames] using ht
  | _ => cases hname

theorem Formed.wellBranched {B : Nat → Prop} (h : n.Formed (fun t => t.isBranchedLeaf = false) B) :
    n.WellBranched := by
  cases h with
  | document _ undivided =>
    exact ⟨by simp [tagName?], fun _ => branchName?_of_undivided undivided, by simp⟩
  | @leaf t kind name attributes value token isLeaf _ _ _ _ undivided =>
    have hname := notMem_branchedNames (n := ⟨(), t.span, kind, name, attributes, value, []⟩) token isLeaf rfl
    exact ⟨fun name hmem hin => absurd hin (hname name hmem), by simp, branchName?_of_undivided undivided⟩
  | element _ _ _ undivided =>
    obtain ⟨hname, hchildren⟩ := List.forall_mem_append.1 (branchName?_of_undivided undivided)
    exact ⟨by simp [tagName?], fun _ => hchildren, by simpa using hname⟩
  | block _ _ _ plain undivided =>
    refine ⟨fun name hmem hin => ?_, fun _ => branchName?_of_undivided undivided, by simp⟩
    cases hmem
    simp only [isBranchedTag, decide_eq_false_iff_not] at plain
    exact absurd hin plain
  | @branched span name markup opener closer children _ _ _ branched divided =>
    refine ⟨fun _ _ _ => divided.branchNames, fun hname => ?_, by simp⟩
    simp only [isBranchedTag, decide_eq_true_eq] at branched
    exact absurd branched (hname name rfl)
  | branch _ _ undivided =>
    exact ⟨by simp [tagName?], fun _ => branchName?_of_undivided undivided, by simp⟩

end Node

/-- **Branches are the children of branched tags, and are nowhere else**: every branched tag of a template has a
first branch without a name and then branches that start with `elsif`, `else` or `when`. -/
theorem wellBranched_of_parse {source : String} {strictness : Strictness} {d : Document Unit}
    (h : Document.parse source strictness = .ok d) : ∀ e ∈ d.entries, e.node.WellBranched := by
  obtain ⟨tokens, htokens⟩ := ofSource_of_parse h
  intro e he
  have hmem : e.node ∈ d.root.preorder := by
    rw [← Node.map_node_entries _ 0 none none none]
    exact List.mem_map_of_mem he
  have hformed := formed_of_parse (B := fun _ => True) (fun _ _ => ⟨trivial, trivial⟩) ⟨trivial, trivial⟩ htokens
    (unbranched_of_ofSource htokens) h e.node hmem
  exact hformed.wellBranched

/-- Branched tags in a value, among attributes and in a body that is left open. -/
theorem wellBranched_in_attributes :
    ∃ d, Document.parse ("<p a=\"\x7b% if b %\x7dc\x7b% else %\x7d\x7b% endif %\x7d\" " ++
        "\x7b% for d in e %\x7d\x7b% endfor %\x7d>\x7b% case f %\x7d\x7b% when 1 %\x7d") .tolerant = .ok d ∧
      d.entries.length = 14 ∧ ∀ e ∈ d.entries, e.node.WellBranched := by
  obtain ⟨d, hd, hlength⟩ := exists_eq_ok (P := fun d : Document Unit => d.entries.length == 14)
    (x := Document.parse ("<p a=\"\x7b% if b %\x7dc\x7b% else %\x7d\x7b% endif %\x7d\" " ++
      "\x7b% for d in e %\x7d\x7b% endfor %\x7d>\x7b% case f %\x7d\x7b% when 1 %\x7d") .tolerant) (by decide +kernel)
  exact ⟨d, hd, by simpa using hlength, wellBranched_of_parse hd⟩

end LiquidTemplate
