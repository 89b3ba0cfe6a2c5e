import LiquidTemplate.Proofs.Nesting.Sound
import LiquidTemplate.Proofs.Print.Respaced

/-!
# Trees that can be respaced

The tree of a template is settled under a respacing if the respacing covers its tokens (`Derives.settled`): the offsets
of a node are offsets of its tokens, the name and the attributes of a node come from one token, and what is below a
node stands between the first and the last token of the template.
-/

namespace LiquidTemplate

/-! ## Trees and lists of nodes -/

namespace Node

theorem Through.and {P Q : Node Unit → Prop} {n : Node Unit} (h : n.Through P) (h' : n.Through Q) :
    n.Through fun m => P m ∧ Q m := by
  induction h with
  | mk own _ ih => exact .mk ⟨own, h'.own⟩ fun c hc => ih c hc (h'.inside c hc)

mutual

theorem through_of_preorder {Q : Node Unit → Prop} (n : Node Unit) (h : ∀ k ∈ n.preorder, Q k) :
    n.Through fun m => ∀ k ∈ m.preorder, Q k := by
  obtain ⟨info, span, kind, name, attributes, value, children⟩ := n
  refine .mk h (through_of_preorderOf children fun k hk => h k ?_)
  simp [preorder, hk]

theorem through_of_preorderOf {Q : Node Unit → Prop} (ns : List (Node Unit)) (h : ∀ k ∈ preorderOf ns, Q k) :
    ∀ n ∈ ns, n.Through fun m => ∀ k ∈ m.preorder, Q k := by
  cases ns with
  | nil => simp
  | cons n ns =>
    simp only [preorderOf, List.forall_mem_append] at h
    exact List.forall_mem_cons.2 ⟨through_of_preorder n h.1, through_of_preorderOf ns h.2⟩

end

end Node

/-! ## Tokens -/

namespace Token

theorem Placed.everywhere {t : Token} (h : t.Placed) {a b : Nat} (ha : a ≤ t.span.start) (hb : t.span.stop ≤ b) :
    t.Everywhere fun u => u.span.EndsIn fun i => a ≤ i ∧ i ≤ b := by
  induction h with
  | @mk t nonempty name attributes value _ _ _ ih ih' ih'' =>
    have hparts {us : List Token} (horder : Span.InOrder t.span.start t.span.stop (us.map span))
        (hus : ∀ u ∈ us, a ≤ u.span.start → u.span.stop ≤ b →
          u.Everywhere fun u => u.span.EndsIn fun i => a ≤ i ∧ i ≤ b) :
        ∀ u ∈ us, u.Everywhere fun u => u.span.EndsIn fun i => a ≤ i ∧ i ≤ b := by
      intro u hu
      have hbounds := horder.bounds (List.mem_map_of_mem hu)
      exact hus u hu (by omega) (by omega)
    exact ⟨⟨⟨ha, by omega⟩, by omega, hb⟩, hparts name ih, hparts attributes ih', hparts value ih''⟩

end Token

section

open Node

variable {a b : List Char} {r : Respacing a b} {o : Options}

/-! ## Offsets -/

theorem bodyEnds_of_tags {n : Node Unit} {B : Nat → Prop} (htags : ∀ span ∈ n.kind.tags, span.EndsIn B)
    (hends : n.span.EndsIn B) : ∀ i ∈ n.bodyEnds, B i := by
  obtain ⟨info, span, kind, name, attributes, value, children⟩ := n
  cases kind with
  | element opener closer =>
    have hopener : opener.EndsIn B := htags _ (by simp [Kind.tags])
    have hcloser : closer.EndsIn B := htags _ (by simp [Kind.tags])
    simpa [bodyEnds] using ⟨hopener.2, hcloser.1⟩
  | block tagName markup opener closer =>
    have hopener : opener.span.EndsIn B := htags _ (by simp [Kind.tags])
    cases closer with
    | none => simpa [bodyEnds] using hopener.2
    | some closer =>
      have hcloser : closer.span.EndsIn B := htags _ (by simp [Kind.tags])
      simpa [bodyEnds] using ⟨hopener.2, hcloser.1⟩
  | branch branchName markup opener =>
    have hopener : opener.span.EndsIn B := htags _ (by simp [Kind.tags])
    simpa [bodyEnds] using ⟨hopener.2, hends.2⟩
  | _ => simp [bodyEnds]

theorem bodyEnds_eq_nil {n : Node Unit} (h : n.kind.tags = []) : n.bodyEnds = [] := by
  obtain ⟨info, span, kind, name, attributes, value, children⟩ := n
  cases kind with
  | element | block | branch => cases h
  | _ => rfl

theorem through_steady_of_formed {P : Token → Prop} {c : Node Unit} (h : ∀ k ∈ c.preorder, k.Formed P r.inner) :
    c.Through (Steady r) := by
  refine (through_of_preorder c h).imp fun m hm => ?_
  have hown := hm m (mem_preorder.2 (.inl rfl))
  refine ⟨⟨r.anchor_of_inner _ hown.ends.1, r.anchor_of_inner _ hown.ends.2⟩, bodyEnds_of_tags hown.tags hown.ends, ?_⟩
  intro c hc
  exact (allFormed_members hm c (by simp [members, hc]) c (mem_preorder.2 (.inl rfl))).ends

theorem through_steady_of_children {P : Token → Prop} {m : Node Unit} (hends : m.span.EndsIn r.anchor)
    (hbody : ∀ i ∈ m.bodyEnds, r.inner i) (hchildren : AllFormed P r.inner m.children) : m.Through (Steady r) :=
  .mk ⟨hends, hbody, fun _ hc => (hchildren.formed hc).ends⟩ fun c hc => through_steady_of_formed (hchildren c hc)

section

variable {lo hi : Nat} (hinner : ∀ i, r.anchor i → lo < i → i < hi → r.inner i)

include hinner

theorem everywhere_inner {c d : Nat} {ts : List Token} (hts : ∀ t ∈ ts, t.Everywhere fun u => u.span.EndsIn r.anchor)
    (hinside : Token.Inside c d ts) (hc : lo < c) (hd : d < hi) :
    ∀ t ∈ ts, t.Everywhere fun u => u.span.EndsIn r.inner := by
  intro t ht
  obtain ⟨horder, hplaced⟩ := hinside
  have hbounds := horder.bounds (List.mem_map_of_mem ht)
  refine ((hts t ht).and ((hplaced t ht).everywhere hbounds.1 hbounds.2.2)).imp fun u ⟨hanchor, hstart, hstop⟩ => ?_
  exact ⟨hinner _ hanchor.1 (by omega) (by omega), hinner _ hanchor.2 (by omega) (by omega)⟩

/-- **An item is steady**: its children are between its first and its last token. -/
theorem Derives.steady_item {ts : List Token} {n : Node Unit} (h : Derives .item ts [n])
    (hts : ∀ t ∈ ts, t.Everywhere fun u => u.span.EndsIn r.anchor) (hinside : Token.Inside lo hi ts) :
    n.Through (Steady r) := by
  -- the tokens of a container are its opening tag, those of its body, and its closing tag
  have hcontainer {t u : Token} {body : List Token}
      (hts : ∀ t' ∈ t :: (body ++ [u]), t'.Everywhere fun v => v.span.EndsIn r.anchor)
      (hinside : Token.Inside lo hi (t :: (body ++ [u]))) :
      Span.EndsIn r.anchor ⟨t.span.start, u.span.stop⟩ ∧ r.inner t.span.stop ∧ r.inner u.span.start ∧
        ∀ t' ∈ body, t'.Everywhere fun v => v.span.EndsIn r.inner := by
    obtain ⟨ht, hts⟩ := List.forall_mem_cons.1 hts
    obtain ⟨hbody, hu⟩ := List.forall_mem_append.1 hts
    have hu := hu u (List.mem_singleton_self u)
    obtain ⟨hstart, hnonempty, -, hrest⟩ := hinside.uncons
    obtain ⟨k, hinside, hclose⟩ := hrest.split
    obtain ⟨hle, hnonempty', -, hend⟩ := hclose.uncons
    have hk := hinside.1.le
    have hend := hend.1.le
    exact ⟨⟨ht.here.1, hu.here.2⟩, hinner _ ht.here.2 (by omega) (by omega), hinner _ hu.here.1 (by omega) (by omega),
      everywhere_inner hinner hbody hinside (by omega) (by omega)⟩
  have hB : ∀ t : Token, t.span.EndsIn r.inner → t.span.EndsIn r.inner := fun _ h => h
  generalize hphrase : Phrase.item = phrase at h
  generalize hns : [n] = ns at h
  cases h with
  | nil | cons | lastBranch | nextBranch => cases hphrase
  | @leaf t kind name attributes value isLeaf =>
    cases hns
    refine .mk ⟨(hts t (List.mem_singleton_self t)).here, ?_, by simp⟩ (by simp)
    have hnil : (⟨(), t.span, kind, name, attributes, value, []⟩ : Node Unit).bodyEnds = [] :=
      bodyEnds_eq_nil (tags_of_leafKind? isLeaf)
    simp [hnil]
  | element _ _ inside =>
    cases hns
    obtain ⟨hends, hopener, hcloser, hbody⟩ := hcontainer hts hinside
    refine through_steady_of_children hends ?_ (inside.formed hB hbody trivial).2
    simpa [bodyEnds] using ⟨hopener, hcloser⟩
  | block _ inside =>
    cases hns
    obtain ⟨hends, hopener, hcloser, hbody⟩ := hcontainer hts hinside
    refine through_steady_of_children hends ?_ (inside.formed hB hbody trivial).2
    simpa [bodyEnds] using ⟨hopener, hcloser⟩
  | branched _ inside =>
    cases hns
    obtain ⟨hends, hopener, hcloser, hbody⟩ := hcontainer hts hinside
    refine through_steady_of_children hends ?_ (inside.formed hB hbody ⟨⟨hopener, hopener⟩, hcloser⟩).2
    simpa [bodyEnds] using ⟨hopener, hcloser⟩

theorem Derives.steady {ts : List Token} {ns : List (Node Unit)} (h : Derives .sequence ts ns)
    (hts : ∀ t ∈ ts, t.Everywhere fun u => u.span.EndsIn r.anchor) (hinside : Token.Inside lo hi ts) :
    ∀ n ∈ ns, n.Through (Steady r) := by
  generalize hphrase : Phrase.sequence = phrase at h
  induction h with
  | nil => simp
  | cons first _ _ ih =>
    obtain ⟨hfirst, hrest⟩ := List.forall_mem_append.1 hts
    obtain ⟨k, hinside, hinside'⟩ := hinside.split
    have hle := hinside.1.le
    have hle' := hinside'.1.le
    refine List.forall_mem_cons.2 ⟨first.steady_item hinner hfirst (hinside.widen (Nat.le_refl _) hle'), ?_⟩
    exact ih hrest (hinside'.widen hle (Nat.le_refl _)) hphrase
  | leaf | element | block | branched | lastBranch | nextBranch => cases hphrase

end

/-! ## Names and attributes -/

/-- A token that a respacing moves as a whole, with all its parts. -/
def Token.MovesWith (r : Respacing a b) (t : Token) : Prop :=
  ∃ B : Nat → Prop, Rigid a b r.move B ∧ (∀ i, B i → r.anchor i) ∧ t.Everywhere fun u => u.span.EndsIn B

theorem Token.MovesWith.everywhere {t : Token} (h : t.MovesWith r) : t.Everywhere fun u => u.span.EndsIn r.anchor := by
  obtain ⟨B, -, hanchor, hB⟩ := h
  exact hB.imp fun u hu => ⟨hanchor _ hu.1, hanchor _ hu.2⟩

theorem onOneLine_of_nil {m : Node Unit} (hname : m.name = []) (hattributes : m.attributes = []) : m.OnOneLine r := by
  refine ⟨fun _ => False, ⟨nofun, nofun⟩, ?_, ?_⟩
  · simp [hname, AllFormed]
  · simp [hattributes, AllFormed]

theorem Token.MovesWith.onOneLine {t : Token} (h : t.MovesWith r) {m : Node Unit}
    (hname : Derives .sequence t.nameParts m.name) (hattributes : Derives .sequence t.attributeParts m.attributes) :
    m.OnOneLine r := by
  obtain ⟨B, hrigid, -, hB⟩ := h
  exact ⟨B, hrigid, (hname.formed (fun _ h => h) hB.inName trivial).2,
    (hattributes.formed (fun _ h => h) hB.inAttributes trivial).2⟩

theorem Derives.onOneLine {phrase : Phrase} {ts : List Token} {ns : List (Node Unit)} (h : Derives phrase ts ns)
    (hts : ∀ t ∈ ts, t.MovesWith r ∧ t.isAttribute = false) :
    ∀ n ∈ ns, n.Through fun m => m.isAttribute = false ∧ m.OnOneLine r := by
  induction h with
  | nil => simp
  | cons _ _ ih ih' =>
    obtain ⟨hts, hus⟩ := List.forall_mem_append.1 hts
    exact List.forall_mem_cons.2 ⟨ih hts _ (List.mem_singleton_self _), ih' hus⟩
  | @leaf t kind name attributes value isLeaf names items =>
    rw [List.forall_mem_singleton] at hts ⊢
    obtain ⟨hmoves, hitem⟩ := hts
    refine .mk ⟨?_, hmoves.onOneLine names items⟩ (by simp)
    cases Token.isLeaf_of_leafKind? isLeaf with
    | attr => cases hitem
    | _ => rfl
  | element names items _ _ _ _ _ ih =>
    rw [List.forall_mem_singleton]
    obtain ⟨hopen, hbody⟩ := List.forall_mem_cons.1 hts
    exact .mk ⟨rfl, hopen.1.onOneLine names items⟩ (ih fun t ht => hbody t (List.mem_append_left _ ht))
  | block _ _ ih | branched _ _ ih =>
    rw [List.forall_mem_singleton]
    obtain ⟨-, hbody⟩ := List.forall_mem_cons.1 hts
    exact .mk ⟨rfl, onOneLine_of_nil rfl rfl⟩ (ih fun t ht => hbody t (List.mem_append_left _ ht))
  | lastBranch _ ih =>
    rw [List.forall_mem_singleton]
    exact .mk ⟨rfl, onOneLine_of_nil rfl rfl⟩ (ih hts)
  | nextBranch _ _ _ ih ih' =>
    obtain ⟨hbody, hrest⟩ := List.forall_mem_append.1 hts
    exact List.forall_mem_cons.2 ⟨.mk ⟨rfl, onOneLine_of_nil rfl rfl⟩ (ih hbody), ih' (List.forall_mem_cons.1 hrest).2⟩

/-- **The nodes of a template are settled** under a respacing that moves its tokens. -/
theorem Derives.settled {lo hi : Nat} (hinner : ∀ i, r.anchor i → lo < i → i < hi → r.inner i) {ts : List Token}
    {ns : List (Node Unit)} (h : Derives .sequence ts ns) (hinside : Token.Inside lo hi ts)
    (hts : ∀ t ∈ ts, t.MovesWith r ∧ t.isAttribute = false)
    (hns : ∀ n ∈ ns, ∀ k ∈ n.preorder, k.Arranged ∧ k.Unremarkable o ∧ k.keepsLayout = false) :
    ∀ n ∈ ns, n.Through (Settled r o) := by
  intro n hn
  have hsteady := h.steady hinner (fun t ht => (hts t ht).1.everywhere) hinside n hn
  have hplain := through_of_preorder n (hns n hn)
  refine ((hsteady.and (h.onOneLine hts n hn)).and hplain).imp fun m ⟨⟨hsteady, hitem, hline⟩, hplain⟩ => ?_
  obtain ⟨harranged, hremark, hlayout⟩ := hplain m (mem_preorder.2 (.inl rfl))
  refine ⟨⟨hsteady, hlayout⟩, harranged, hitem, hline, hremark, fun c hc => ?_⟩
  exact (hplain c (mem_preorder.2 (.inr ⟨c, by simp [members, hc], mem_preorder.2 (.inl rfl)⟩))).2.1

end

end LiquidTemplate
