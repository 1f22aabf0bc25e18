import Mathlib
import Kroc.Lib.Returns

/-!
# Lib/DepthFirst — a graph listed depth first

Every node of a graph has an entry and a list of successors, each another node or an entry alone (a
leaf).  `visit` lists a node's entry and what is below it, unless an entry of the same key is listed
already.

* `exists_returns` — cycles or not, the visit ends, as each entry has a new key of finitely many;
* `visit_nodup`, `visit_has` — no key is listed twice, and what is listed is below the root;
* `visit_complete` — everything below the root is listed, if keys say which node is meant
  (`Consistent`);
* `Copy.visit_map` — the order depends on the graph alone, not on what its nodes are.
-/

namespace DepthFirst

/-! ## Loops that may fail -/

section Loops

variable {α β : Type*} {f : β → α → Option β} {xs : List α} {b c : β}

/-- What relates a state to the next at every round relates the first to the last. -/
theorem foldlM_rel {R : β → β → Prop} (hrefl : ∀ b, R b b)
    (htrans : ∀ b c d, R b c → R c d → R b d)
    (hstep : ∀ x ∈ xs, ∀ b c, f b x = some c → R b c) (h : xs.foldlM f b = some c) : R b c := by
  induction xs generalizing b with
  | nil =>
    obtain rfl := Option.some.inj h
    exact hrefl b
  | cons x xs ih =>
    rw [List.foldlM_cons] at h
    obtain ⟨d, hd, hc⟩ := Option.bind_eq_some_iff.mp h
    refine htrans b d c (hstep x List.mem_cons_self b d hd) (ih (fun y hy => ?_) hc)
    exact hstep y (List.mem_cons_of_mem x hy)

/-- What every round keeps, and does not fail under, the loop keeps and does not fail under. -/
theorem exists_foldlM {I : β → Prop}
    (hstep : ∀ x ∈ xs, ∀ b, I b → ∃ c, f b x = some c ∧ I c) (hb : I b) :
    ∃ c, xs.foldlM f b = some c ∧ I c := by
  induction xs generalizing b with
  | nil => exact ⟨b, rfl, hb⟩
  | cons x xs ih =>
    obtain ⟨d, hd, hI⟩ := hstep x List.mem_cons_self b hb
    obtain ⟨c, hc, hIc⟩ := ih (fun y hy => hstep y (List.mem_cons_of_mem x hy)) hI
    refine ⟨c, ?_, hIc⟩
    rw [List.foldlM_cons, hd]
    exact hc

/-- A loop of rounds that do the same wherever they do something. -/
theorem foldlM_mono {g : β → α → Option β} (hstep : ∀ x b c, f b x = some c → g b x = some c)
    (h : xs.foldlM f b = some c) : xs.foldlM g b = some c := by
  induction xs generalizing b with
  | nil => exact h
  | cons x xs ih =>
    rw [List.foldlM_cons] at h ⊢
    obtain ⟨d, hd, hc⟩ := Option.bind_eq_some_iff.mp h
    exact Option.bind_eq_some_iff.mpr ⟨d, hstep x b d hd, ih hc⟩

/-- A loop of rounds that simulate those of another loop. -/
theorem foldlM_simulates {γ δ : Type*} {g : γ → δ → Option γ} {φ : α → δ} {R : γ → β → Prop}
    {d d' : γ} (hstep : ∀ x ∈ xs, ∀ d d' b, R d b → g d (φ x) = some d' →
      ∃ c, f b x = some c ∧ R d' c)
    (hb : R d b) (h : (xs.map φ).foldlM g d = some d') : ∃ c, xs.foldlM f b = some c ∧ R d' c := by
  induction xs generalizing b d with
  | nil =>
    obtain rfl := Option.some.inj h
    exact ⟨b, rfl, hb⟩
  | cons x xs ih =>
    rw [List.map_cons, List.foldlM_cons] at h
    obtain ⟨e, he, hd'⟩ := Option.bind_eq_some_iff.mp h
    obtain ⟨c, hc, hR⟩ := hstep x List.mem_cons_self d e b hb he
    obtain ⟨c', hc', hR'⟩ := ih (fun y hy => hstep y (List.mem_cons_of_mem x hy)) hR hd'
    refine ⟨c', ?_, hR'⟩
    rw [List.foldlM_cons, hc]
    exact hc'

/-- A loop over what is mapped, of rounds that are mapped. -/
theorem foldlM_map {γ δ : Type*} {g : γ → δ → Option γ} {φ : α → δ} {ψ : β → γ}
    (h : ∀ x ∈ xs, ∀ b, g (ψ b) (φ x) = (f b x).map ψ) :
    (xs.map φ).foldlM g (ψ b) = (xs.foldlM f b).map ψ := by
  induction xs generalizing b with
  | nil => rfl
  | cons x xs ih =>
    rw [List.map_cons, List.foldlM_cons, List.foldlM_cons, h x List.mem_cons_self b]
    cases hx : f b x with
    | none => rfl
    | some c => exact ih fun y hy => h y (List.mem_cons_of_mem x hy)

end Loops

/-! ## The graph and the visit -/

/-- Nodes `P` with their entries and successors; the key of an entry says what is listed already. -/
structure Graph (P E A : Type*) where
  entry : P → E
  succ : P → List (E ⊕ P)
  key : E → A

variable {P E A : Type*} (G : Graph P E A)

namespace Graph

/-- The keys that are listed. -/
def keys (l : List E) : List A := l.map G.key

/-- The key of a successor. -/
def keyOf : E ⊕ P → A
  | .inl e => G.key e
  | .inr q => G.key (G.entry q)

/-- The nodes that are reached from a node, itself included. -/
def Reaches : P → P → Prop := Relation.ReflTransGen fun p q => .inr q ∈ G.succ p

/-- The entries below a node: those of the nodes it reaches, and of their leaves. -/
def Has (p : P) (e : E) : Prop := ∃ q, G.Reaches p q ∧ (e = G.entry q ∨ .inl e ∈ G.succ q)

variable [DecidableEq A]

/-- One successor: a leaf is listed if its key is new, a node is visited. -/
def step (visit : P → List E → Option (List E)) (l : List E) : E ⊕ P → Option (List E)
  | .inl e => some (if G.key e ∈ G.keys l then l else l ++ [e])
  | .inr q => visit q l

/-- **The visit**, with a bound on its depth. -/
def visit : ℕ → P → List E → Option (List E)
  | 0, _, _ => none
  | fuel + 1, p, l =>
    if G.key (G.entry p) ∈ G.keys l then some l
    else (G.succ p).foldlM (G.step (visit fuel)) (l ++ [G.entry p])

end Graph

variable {G} {root p q : P} {e : E} {l l' : List E} {fuel : ℕ}

theorem keys_append (l l' : List E) : G.keys (l ++ l') = G.keys l ++ G.keys l' := List.map_append

theorem mem_keys_mono {a : A} (h : l <+: l') (ha : a ∈ G.keys l) : a ∈ G.keys l' :=
  (h.map G.key).subset ha

theorem mem_keys_concat (l : List E) (e : E) : G.key e ∈ G.keys (l ++ [e]) := by
  rw [keys_append]
  exact List.mem_append_right _ (List.mem_singleton_self _)

variable [DecidableEq A]

theorem step_listed {visit : P → List E → Option (List E)} (h : G.key e ∈ G.keys l) :
    G.step visit l (.inl e) = some l := congrArg some (if_pos h)

theorem step_new {visit : P → List E → Option (List E)} (h : G.key e ∉ G.keys l) :
    G.step visit l (.inl e) = some (l ++ [e]) := congrArg some (if_neg h)

theorem visit_listed (h : G.key (G.entry p) ∈ G.keys l) : G.visit (fuel + 1) p l = some l := by
  rw [Graph.visit, if_pos h]

theorem visit_new (h : G.key (G.entry p) ∉ G.keys l) :
    G.visit (fuel + 1) p l = (G.succ p).foldlM (G.step (G.visit fuel)) (l ++ [G.entry p]) := by
  rw [Graph.visit, if_neg h]

/-! ## What every entry that is listed keeps -/

/-- **The rule for visits**: a relation that holds over every new entry below the root, and
composes, holds over a visit. -/
theorem visit_rel {R : List E → List E → Prop} (hrefl : ∀ l, R l l)
    (htrans : ∀ l l' l'', R l l' → R l' l'' → R l l'')
    (hnew : ∀ l e, G.Has root e → G.key e ∉ G.keys l → R l (l ++ [e]))
    (hp : G.Reaches root p) (h : G.visit fuel p l = some l') : R l l' := by
  induction fuel generalizing p l l' with
  | zero => exact absurd h (Option.some_ne_none l').symm
  | succ fuel ih =>
    by_cases hlisted : G.key (G.entry p) ∈ G.keys l
    · rw [visit_listed hlisted] at h
      obtain rfl := Option.some.inj h
      exact hrefl l
    rw [visit_new hlisted] at h
    refine htrans _ _ _ (hnew l _ ⟨p, hp, .inl rfl⟩ hlisted) ?_
    refine foldlM_rel hrefl htrans (fun x hx b c hstep => ?_) h
    cases x with
    | inl e =>
      obtain rfl := Option.some.inj hstep
      by_cases he : G.key e ∈ G.keys b
      · rw [if_pos he]
        exact hrefl b
      · rw [if_neg he]
        exact hnew b e ⟨p, hp, .inr hx⟩ he
    | inr q => exact ih (hp.tail hx) hstep

theorem visit_extends (h : G.visit fuel p l = some l') : l <+: l' :=
  visit_rel List.prefix_refl (fun _ _ _ => List.IsPrefix.trans)
    (fun l e _ _ => List.prefix_append l [e]) Relation.ReflTransGen.refl h

/-- **No key is listed twice**. -/
theorem visit_nodup (h : G.visit fuel p l = some l') : (G.keys l).Nodup → (G.keys l').Nodup := by
  refine visit_rel (R := fun l l' => (G.keys l).Nodup → (G.keys l').Nodup) (fun _ => id)
    (fun _ _ _ h h' => h' ∘ h) (fun l e _ hnew hl => ?_) Relation.ReflTransGen.refl h
  rw [keys_append]
  exact List.nodup_append.mpr ⟨hl, List.nodup_singleton _, fun a ha b hb => by
    obtain rfl := List.mem_singleton.mp hb
    exact ne_of_mem_of_not_mem ha hnew⟩

/-- **What is listed is below the node** that is visited. -/
theorem visit_has (h : G.visit fuel p l = some l') : ∀ e ∈ l', e ∈ l ∨ G.Has p e := by
  refine visit_rel (R := fun l l' => ∀ e ∈ l', e ∈ l ∨ G.Has p e) (fun _ _ => .inl)
    (fun l l' l'' h h' e he => ?_) (fun l e hhas _ e' he' => ?_) Relation.ReflTransGen.refl h
  · exact (h' e he).elim (h e) .inr
  · refine (List.mem_append.mp he').imp id fun hmem => ?_
    obtain rfl := List.mem_singleton.mp hmem
    exact hhas

theorem step_extends {x : E ⊕ P} (h : G.step (G.visit fuel) l x = some l') : l <+: l' := by
  cases x with
  | inl e =>
    obtain rfl := Option.some.inj h
    split
    · exact List.prefix_refl l
    · exact List.prefix_append l [e]
  | inr q => exact visit_extends h

/-- The entry of the node is listed where it was not. -/
theorem visit_entry (h : G.visit fuel p l = some l') (hnew : G.key (G.entry p) ∉ G.keys l) :
    l ++ [G.entry p] <+: l' := by
  cases fuel with
  | zero => exact absurd h (Option.some_ne_none l').symm
  | succ fuel =>
    rw [visit_new hnew] at h
    refine foldlM_rel List.prefix_refl (fun _ _ _ => List.IsPrefix.trans) (fun x _ b c hstep => ?_)
      h
    exact step_extends hstep

theorem visit_lists (h : G.visit fuel p l = some l') : G.key (G.entry p) ∈ G.keys l' := by
  by_cases hlisted : G.key (G.entry p) ∈ G.keys l
  · exact mem_keys_mono (visit_extends h) hlisted
  · exact mem_keys_mono (visit_entry h hlisted) (mem_keys_concat l _)

/-! ## The visit ends -/

theorem step_mono {visit visit' : P → List E → Option (List E)} {x : E ⊕ P}
    (hmono : ∀ q l l', visit q l = some l' → visit' q l = some l')
    (h : G.step visit l x = some l') : G.step visit' l x = some l' := by
  cases x with
  | inl e => exact h
  | inr q => exact hmono q l l' h

theorem visit_mono (h : G.visit fuel p l = some l') : G.visit (fuel + 1) p l = some l' := by
  induction fuel generalizing p l l' with
  | zero => exact absurd h (Option.some_ne_none l').symm
  | succ fuel ih =>
    by_cases hlisted : G.key (G.entry p) ∈ G.keys l
    · rw [visit_listed hlisted] at h ⊢
      exact h
    rw [visit_new hlisted] at h ⊢
    exact foldlM_mono (fun x b c => step_mono fun q l l' => ih) h

/-- The keys of `K` that are not listed. -/
def unlisted (G : Graph P E A) (K : Finset A) (l : List E) : Finset A := K.filter (· ∉ G.keys l)

theorem card_unlisted_le {K : Finset A} (h : l <+: l') :
    (unlisted G K l').card ≤ (unlisted G K l).card :=
  Finset.card_le_card fun a ha => by
    obtain ⟨haK, hnot⟩ := Finset.mem_filter.mp ha
    exact Finset.mem_filter.mpr ⟨haK, fun hmem => hnot (mem_keys_mono h hmem)⟩

theorem card_unlisted_lt {K : Finset A} (hK : G.key e ∈ K) (hnew : G.key e ∉ G.keys l) :
    (unlisted G K (l ++ [e])).card < (unlisted G K l).card := by
  refine Finset.card_lt_card ⟨fun a ha => ?_, fun hle => ?_⟩
  · obtain ⟨haK, hnot⟩ := Finset.mem_filter.mp ha
    exact Finset.mem_filter.mpr
      ⟨haK, fun hmem => hnot (mem_keys_mono (List.prefix_append l [e]) hmem)⟩
  · have hmem := hle (Finset.mem_filter.mpr ⟨hK, hnew⟩)
    exact (Finset.mem_filter.mp hmem).2 (mem_keys_concat l e)

/-- **A depth of one more than the keys that are not listed is enough**: every node that is visited
on the way down has taken one of them. -/
theorem exists_visit {K : Finset A} (hK : ∀ q, G.Reaches root q → G.key (G.entry q) ∈ K)
    (hp : G.Reaches root p) (hfuel : (unlisted G K l).card < fuel) :
    ∃ l', G.visit fuel p l = some l' := by
  induction fuel generalizing p l with
  | zero => exact absurd hfuel (Nat.not_lt_zero _)
  | succ fuel ih =>
    by_cases hlisted : G.key (G.entry p) ∈ G.keys l
    · exact ⟨l, visit_listed hlisted⟩
    rw [visit_new hlisted]
    have hless := card_unlisted_lt (hK p hp) hlisted
    refine Exists.imp (fun _ => And.left) (exists_foldlM (I := fun m => l ++ [G.entry p] <+: m)
      (fun x hx b hb => ?_) (List.prefix_refl _))
    obtain ⟨c, hc⟩ : ∃ c, G.step (G.visit fuel) b x = some c := by
      cases x with
      | inl e => exact ⟨_, rfl⟩
      | inr q =>
        have hcard := card_unlisted_le (G := G) (K := K) hb
        exact ih (hp.tail hx) (show (unlisted G K b).card < fuel by omega)
    exact ⟨c, hc, hb.trans (step_extends hc)⟩

/-- **Every visit ends**, where the keys are finitely many. -/
theorem exists_returns [Fintype A] (G : Graph P E A) (p : P) (l : List E) :
    ∃ l', Returns (fun fuel => G.visit fuel p l) l' := by
  have hK : ∀ q, G.Reaches p q → G.key (G.entry q) ∈ Finset.univ := fun q _ => Finset.mem_univ _
  obtain ⟨l', hl'⟩ := exists_visit (l := l) hK Relation.ReflTransGen.refl (Nat.lt_succ_self _)
  exact ⟨l', Returns.of_mono (fun _ => visit_mono) hl'⟩

/-! ## Everything is listed -/

/-- **Keys say which node is meant**: two nodes of one key have successors of the same keys, and a
node with successors has not the key of a leaf. -/
structure Consistent (G : Graph P E A) (root : P) : Prop where
  node : ∀ p q, G.Reaches root p → G.Reaches root q → G.key (G.entry p) = G.key (G.entry q) →
    ∀ x ∈ G.succ p, G.keyOf x ∈ (G.succ q).map G.keyOf
  leaf : ∀ p q e, G.Reaches root p → G.Reaches root q → .inl e ∈ G.succ p →
    G.key e = G.key (G.entry q) → G.succ q = []

omit [DecidableEq A] in
/-- Keys say which node is meant where all nodes and leaves of a closed set have different ones. -/
theorem Consistent.of_closed {S : Set P} (hroot : root ∈ S)
    (hclosed : ∀ p ∈ S, ∀ q, .inr q ∈ G.succ p → q ∈ S)
    (hnode : ∀ p ∈ S, ∀ q ∈ S, G.key (G.entry p) = G.key (G.entry q) → p = q)
    (hleaf : ∀ p ∈ S, ∀ q ∈ S, ∀ e, .inl e ∈ G.succ p → G.key e ≠ G.key (G.entry q)) :
    Consistent G root := by
  have hreach : ∀ p, G.Reaches root p → p ∈ S := by
    intro p hp
    induction hp with
    | refl => exact hroot
    | tail _ hq ih => exact hclosed _ ih _ hq
  refine ⟨fun p q hp hq hkey x hx => ?_, fun p q e hp hq he hkey => ?_⟩
  · obtain rfl := hnode p (hreach p hp) q (hreach q hq) hkey
    exact List.mem_map_of_mem hx
  · exact absurd hkey (hleaf p (hreach p hp) q (hreach q hq) e he)

/-- The nodes of a key have all their successors listed. -/
def Full (G : Graph P E A) (root : P) (l : List E) (a : A) : Prop :=
  ∀ q, G.Reaches root q → G.key (G.entry q) = a → ∀ x ∈ G.succ q, G.keyOf x ∈ G.keys l

/-- What a visit does: it lists more, and each key that it lists is full when it ends. -/
def Fills (G : Graph P E A) (root : P) (l l' : List E) : Prop :=
  l <+: l' ∧ ∀ a ∈ G.keys l', a ∈ G.keys l ∨ Full G root l' a

omit [DecidableEq A] in
theorem Full.mono {a : A} (h : Full G root l a) (hl : l <+: l') : Full G root l' a :=
  fun q hq hkey x hx => mem_keys_mono hl (h q hq hkey x hx)

omit [DecidableEq A] in
theorem Fills.refl (l : List E) : Fills G root l l := ⟨List.prefix_refl l, fun _ => .inl⟩

omit [DecidableEq A] in
theorem Fills.trans {l'' : List E} (h : Fills G root l l') (h' : Fills G root l' l'') :
    Fills G root l l'' := by
  refine ⟨h.1.trans h'.1, fun a ha => ?_⟩
  rcases h'.2 a ha with ha | hfull
  · exact (h.2 a ha).imp id fun hfull => hfull.mono h'.1
  · exact .inr hfull

omit [DecidableEq A] in
/-- A leaf is full at once. -/
theorem Consistent.fills_leaf (hG : Consistent G root) (hp : G.Reaches root p)
    (he : .inl e ∈ G.succ p) : Fills G root l (l ++ [e]) := by
  refine ⟨List.prefix_append l [e], fun a ha => ?_⟩
  rw [keys_append, List.mem_append] at ha
  refine ha.imp id fun ha q hq hkey x hx => ?_
  obtain rfl := List.mem_singleton.mp ha
  rw [hG.leaf p q e hp hq he hkey.symm] at hx
  exact absurd hx List.not_mem_nil

theorem Consistent.fills_step {x : E ⊕ P} (hG : Consistent G root) (hp : G.Reaches root p)
    (hx : x ∈ G.succ p)
    (ih : ∀ q l l', G.Reaches root q → G.visit fuel q l = some l' → Fills G root l l')
    (h : G.step (G.visit fuel) l x = some l') : Fills G root l l' := by
  cases x with
  | inl e =>
    obtain rfl := Option.some.inj h
    split
    · exact Fills.refl l
    · exact hG.fills_leaf hp hx
  | inr q => exact ih q l l' (hp.tail hx) h

theorem step_lists {x : E ⊕ P} (h : G.step (G.visit fuel) l x = some l') :
    G.keyOf x ∈ G.keys l' := by
  cases x with
  | inl e =>
    obtain rfl := Option.some.inj h
    change G.key e ∈ _
    split
    · assumption
    · exact mem_keys_concat l e
  | inr q => exact visit_lists h

/-- A loop over successors lists them all. -/
theorem loop_lists {xs : List (E ⊕ P)} (h : xs.foldlM (G.step (G.visit fuel)) l = some l')
    (hfills : ∀ x ∈ xs, ∀ b c, G.step (G.visit fuel) b x = some c → Fills G root b c) :
    ∀ x ∈ xs, G.keyOf x ∈ G.keys l' := by
  induction xs generalizing l with
  | nil => exact fun x hx => absurd hx List.not_mem_nil
  | cons y ys ih =>
    rw [List.foldlM_cons] at h
    obtain ⟨d, hd, hc⟩ := Option.bind_eq_some_iff.mp h
    have hys := fun x hx => hfills x (List.mem_cons_of_mem y hx)
    intro x hx
    rcases List.mem_cons.mp hx with rfl | hx
    · have hrest := foldlM_rel (R := Fills G root) Fills.refl (fun _ _ _ => Fills.trans) hys hc
      exact mem_keys_mono hrest.1 (step_lists hd)
    · exact ih hc hys x hx

/-- **A visit leaves every key that it lists full**.  A node's key is not while its successors are
visited; when its loop ends they are all listed. -/
theorem Consistent.fills (hG : Consistent G root) (hp : G.Reaches root p)
    (h : G.visit fuel p l = some l') : Fills G root l l' := by
  induction fuel generalizing p l l' with
  | zero => exact absurd h (Option.some_ne_none l').symm
  | succ fuel ih =>
    by_cases hlisted : G.key (G.entry p) ∈ G.keys l
    · rw [visit_listed hlisted] at h
      obtain rfl := Option.some.inj h
      exact Fills.refl l
    rw [visit_new hlisted] at h
    have hstep : ∀ x ∈ G.succ p, ∀ b c, G.step (G.visit fuel) b x = some c → Fills G root b c :=
      fun x hx b c hx' => hG.fills_step hp hx (fun q l l' hq => ih hq) hx'
    have hloop := foldlM_rel (R := Fills G root) Fills.refl (fun _ _ _ => Fills.trans) hstep h
    refine ⟨(List.prefix_append l _).trans hloop.1, fun a ha => ?_⟩
    rcases hloop.2 a ha with ha | hfull
    · rw [keys_append, List.mem_append] at ha
      refine ha.imp id fun ha q hq hkey x hx => ?_
      obtain rfl := List.mem_singleton.mp ha
      obtain ⟨y, hy, hxy⟩ := List.mem_map.mp (hG.node q p hq hp hkey x hx)
      rw [← hxy]
      exact loop_lists h hstep y hy
    · exact .inr hfull

/-- **Everything below the root is listed**. -/
theorem visit_complete (hG : Consistent G root) (h : G.visit fuel root [] = some l)
    (he : G.Has root e) : G.key e ∈ G.keys l := by
  have hfull : ∀ a ∈ G.keys l, Full G root l a := fun a ha =>
    ((hG.fills Relation.ReflTransGen.refl h).2 a ha).resolve_left List.not_mem_nil
  have hnodes : ∀ q, G.Reaches root q → G.key (G.entry q) ∈ G.keys l := by
    intro q hq
    induction hq with
    | refl => exact visit_lists h
    | tail hp hq ih => exact hfull _ ih _ hp rfl (.inr _) hq
  obtain ⟨q, hq, rfl | hleaf⟩ := he
  · exact hnodes q hq
  · exact hfull _ (hnodes q hq) q hq rfl (.inl e) hleaf

/-! ## The same graph elsewhere -/

/-- `G'` is `G` from `root` on, with its nodes at `σ` and its entries renamed by `τ`. -/
structure Copy {P' E' A' : Type*} (G : Graph P E A) (root : P) (G' : Graph P' E' A') (σ : P → P')
    (τ : E → E') : Prop where
  entry : ∀ p, G.Reaches root p → G'.entry (σ p) = τ (G.entry p)
  succ : ∀ p, G.Reaches root p → G'.succ (σ p) = (G.succ p).map (Sum.map τ σ)
  key : ∀ e e', G'.key (τ e) = G'.key (τ e') ↔ G.key e = G.key e'

namespace Copy

variable {P' E' A' : Type*} {G' : Graph P' E' A'} {σ : P → P'} {τ : E → E'}

omit [DecidableEq A] in
theorem mem_keys_map (h : Copy G root G' σ τ) (e : E) (l : List E) :
    G'.key (τ e) ∈ G'.keys (l.map τ) ↔ G.key e ∈ G.keys l := by
  rw [Graph.keys, Graph.keys, List.map_map, List.mem_map, List.mem_map]
  exact exists_congr fun e' => and_congr_right fun _ => h.key e' e

/-- **The order is that of the graph**: it does not depend on where the nodes are. -/
theorem visit_map [DecidableEq A'] (h : Copy G root G' σ τ) (hp : G.Reaches root p) :
    G'.visit fuel (σ p) (l.map τ) = (G.visit fuel p l).map (List.map τ) := by
  induction fuel generalizing p l with
  | zero => rfl
  | succ fuel ih =>
    by_cases hlisted : G.key (G.entry p) ∈ G.keys l
    · rw [visit_listed hlisted, visit_listed (by rwa [h.entry p hp, h.mem_keys_map])]
      rfl
    rw [visit_new hlisted, visit_new (by rwa [h.entry p hp, h.mem_keys_map]), h.entry p hp,
      h.succ p hp, ← List.map_singleton, ← List.map_append]
    refine foldlM_map (ψ := List.map τ) fun x hx b => ?_
    cases x with
    | inl e =>
      have hiff := h.mem_keys_map e b
      by_cases he : G.key e ∈ G.keys b
      · rw [Sum.map_inl, Graph.step, Graph.step, if_pos he, if_pos (hiff.mpr he), Option.map_some]
      · rw [Sum.map_inl, Graph.step, Graph.step, if_neg he, if_neg (hiff.not.mpr he),
          Option.map_some, List.map_append, List.map_singleton]
    | inr q => exact ih (hp.tail hx)

end Copy

end DepthFirst
