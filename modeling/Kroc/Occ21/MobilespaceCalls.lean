import Kroc.Occ21.MobilespaceOffsets

/-!
# Occ21/MobilespaceCalls — what well-nested calls leave

Variables, instances and replicated PARs as they are nested in a procedure, the calls that map them,
and the map after these calls.  The node of a replicated PAR is always put on the map of the
procedure, never inside of another one.
-/

namespace Kroc

namespace Occ21

/-! ## Well-nested calls -/

/-- What is mapped: a variable, an instance with the words it asks for, or a replicated PAR with
what is mapped in it. -/
inductive Item
  | var (nptr : MobileVar)
  | inst (nwords : ℤ)
  | replpar (replcount : ℕ+) (body : List Item)

mutual

def Item.calls : Item → List MobileCall
  | .var nptr => [.newmobilevar nptr]
  | .inst nwords => [.newmobileinstance nwords]
  | .replpar replcount body =>
    .mobilereplparstart replcount :: (callsOf body ++ [.mobilereplparfinish])

def callsOf : List Item → List MobileCall
  | [] => []
  | i :: rest => i.calls ++ callsOf rest

end

mutual

/-- How deep replicated PARs are nested. -/
def Item.depth : Item → ℕ
  | .var _ => 0
  | .inst _ => 0
  | .replpar _ body => depthOf body + 1

def depthOf : List Item → ℕ
  | [] => 0
  | i :: rest => max i.depth (depthOf rest)

end

mutual

/-- The nodes that are allocated for it. -/
def Item.nodes : Item → ℕ
  | .var _ => 1
  | .inst nwords => if nwords = 0 then 0 else 1
  | .replpar _ body => nodesOf body + 1

def nodesOf : List Item → ℕ
  | [] => 0
  | i :: rest => i.nodes + nodesOf rest

end

/-- A variable or an instance: where its node is allocated, the counts of the replicated PARs around
it, the innermost one first, and its words. -/
structure Leaf where
  addr : ℕ
  counts : List ℕ
  words : ℤ
  isVar : Bool
  deriving DecidableEq

/-- The words and the shadow word. -/
def Leaf.weight (l : Leaf) : ℤ := l.words + if l.isVar then 1 else 0

mutual

/-- The variables and instances inside of `counts`, from the next node that is allocated. -/
def Item.leaves (fresh : ℕ) (counts : List ℕ) : Item → List Leaf
  | .var nptr => [⟨fresh, counts, nptr.words, true⟩]
  | .inst nwords => if nwords = 0 then [] else [⟨fresh, counts, nwords, false⟩]
  | .replpar replcount body => leavesOf (fresh + 1) (replcount :: counts) body

def leavesOf (fresh : ℕ) (counts : List ℕ) : List Item → List Leaf
  | [] => []
  | i :: rest => i.leaves fresh counts ++ leavesOf (fresh + i.nodes) counts rest

end

/-- Mapping a procedure. -/
def layout (items : List Item) : Option (List Msmap) :=
  (mapCalls (callsOf items) ⟨0, [], []⟩).bind mobileoutproc

/-! ## What the calls leave -/

/-- The node of a variable or an instance. -/
def Item.own (fresh : ℕ) : Item → List Msmap
  | .var nptr => [.var fresh nptr.words (-1) (-1) nptr]
  | .inst nwords => if nwords = 0 then [] else [.inst fresh nwords (-1) (-1)]
  | .replpar .. => []

/-- The nodes of variables and instances that are in no further replicated PAR, the last
one first. -/
def ownOf (fresh : ℕ) : List Item → List Msmap
  | [] => []
  | i :: rest => ownOf (fresh + i.nodes) rest ++ i.own fresh

def Item.usage : Item → ℤ
  | .var nptr => nptr.words + 1
  | .inst nwords => nwords
  | .replpar .. => 0

/-- What a replica of a PAR uses. -/
def usageOf (items : List Item) : ℤ := (items.map Item.usage).sum

theorem usageOf_cons (i : Item) (rest : List Item) : usageOf (i :: rest) = i.usage + usageOf rest :=
  List.sum_cons

mutual

/-- What a replica uses is an `int`, from `usage` words on that it uses already. -/
def Item.Fits (usage : ℤ) : Item → Prop
  | .var nptr => IsInt (nptr.words + 1) ∧ IsInt (usage + (nptr.words + 1))
  | .inst nwords => nwords = 0 ∨ IsInt (usage + nwords)
  | .replpar _ body => FitsAll 0 body

def FitsAll (usage : ℤ) : List Item → Prop
  | [] => True
  | i :: rest => i.Fits usage ∧ FitsAll (usage + i.usage) rest

end

mutual

/-- No instance asks for less than no words. -/
def Item.Sized : Item → Prop
  | .var _ => True
  | .inst nwords => 0 ≤ nwords
  | .replpar _ body => SizedAll body

def SizedAll : List Item → Prop
  | [] => True
  | i :: rest => i.Sized ∧ SizedAll rest

end

/-- What is in no replicated PAR is not summed up while it is mapped. -/
def Item.FitsTop : Item → Prop
  | .replpar _ body => FitsAll 0 body
  | _ => True

/-- The node of a replicated PAR, when it has finished. -/
def parNode (fresh : ℕ) (replcount : ℕ+) (body : List Item) : Msmap :=
  .replpar fresh (usageOf body) (-1) (-1) replcount
    (if (ownOf (fresh + 1) body).length > 0 then usageOf body else 0) (ownOf (fresh + 1) body)

mutual

/-- The nodes of the replicated PARs, the last one first. -/
def Item.pars (fresh : ℕ) : Item → List Msmap
  | .var _ => []
  | .inst _ => []
  | .replpar replcount body =>
    if usageOf body = 0 ∧ ownOf (fresh + 1) body = [] ∧ parsOf (fresh + 1) body = [] then []
    else parsOf (fresh + 1) body ++ [parNode fresh replcount body]

def parsOf (fresh : ℕ) : List Item → List Msmap
  | [] => []
  | i :: rest => parsOf (fresh + i.nodes) rest ++ i.pars fresh

end

/-- What is on the map of the procedure when no replicated PAR is around. -/
def topOf (fresh : ℕ) : List Item → List Msmap
  | [] => []
  | i :: rest => topOf (fresh + i.nodes) rest ++ (i.own fresh ++ i.pars fresh)

/-- **The map of a procedure** is made of its own nodes and those of the replicated PARs. -/
theorem topOf_perm : ∀ (fresh : ℕ) (items : List Item),
    (topOf fresh items).Perm (ownOf fresh items ++ parsOf fresh items)
  | _, [] => List.Perm.refl _
  | fresh, i :: rest => by
    have ih := (topOf_perm (fresh + i.nodes) rest).append_right (i.own fresh ++ i.pars fresh)
    rw [topOf, ownOf, parsOf]
    refine ih.trans ?_
    rw [List.append_assoc, List.append_assoc]
    refine List.Perm.append_left _ ?_
    rw [← List.append_assoc, ← List.append_assoc]
    exact List.perm_append_comm.append_right _

theorem addr_own {fresh : ℕ} {i : Item} {m : Msmap} (hm : m ∈ i.own fresh) :
    m.addr = fresh ∧ 0 < i.nodes := by
  cases i with
  | var nptr => exact ⟨List.mem_singleton.mp hm ▸ rfl, Nat.one_pos⟩
  | inst nwords =>
    rw [Item.own] at hm
    split_ifs at hm with h0
    · cases hm
    · exact ⟨List.mem_singleton.mp hm ▸ rfl, by rw [Item.nodes, if_neg h0]; exact Nat.one_pos⟩
  | replpar => cases hm

/-- The nodes have the addresses in between. -/
theorem addr_ownOf : ∀ {fresh : ℕ} {items : List Item} {m : Msmap}, m ∈ ownOf fresh items →
    fresh ≤ m.addr ∧ m.addr < fresh + nodesOf items
  | fresh, i :: rest, m, hm => by
    rw [nodesOf]
    rcases List.mem_append.mp hm with hm | hm
    · have := addr_ownOf hm
      omega
    · have := addr_own hm
      omega

theorem addr_parsOf : ∀ {items : List Item} {fresh : ℕ} {m : Msmap}, m ∈ parsOf fresh items →
    fresh ≤ m.addr ∧ m.addr < fresh + nodesOf items
  | [], _, _, hm => by cases hm
  | i :: rest, fresh, m, hm => by
    rw [nodesOf]
    rw [parsOf] at hm
    rcases List.mem_append.mp hm with hm | hm
    · have := addr_parsOf hm
      omega
    · cases i with
      | var => cases hm
      | inst => cases hm
      | replpar replcount body =>
        rw [Item.pars] at hm
        rw [Item.nodes]
        split_ifs at hm with h0
        · cases hm
        · rcases List.mem_append.mp hm with hm | hm
          · have := addr_parsOf hm
            omega
          · obtain rfl := List.mem_singleton.mp hm
            have : (parNode fresh replcount body).addr = fresh := rfl
            omega

/-- All of `nodes` are put in front of what is inside of the node at `addr`. -/
def linkAll (addr : ℕ) (nodes : List Msmap) : Msmap → Msmap
  | .replpar a words msoffset sloffset replcount msusage replptr =>
    .replpar a words msoffset sloffset replcount msusage
      (if a = addr then nodes ++ replptr else replptr)
  | m => m

theorem linkIn_eq (addr : ℕ) (node : Msmap) : linkIn addr node = linkAll addr [node] := rfl

theorem linkAll_nil (addr : ℕ) : linkAll addr [] = id := by
  funext m
  cases m <;> simp [linkAll]

/-- Linking twice is linking both. -/
theorem linkAll_linkAll (addr : ℕ) (nodes nodes' : List Msmap) :
    linkAll addr nodes ∘ linkAll addr nodes' = linkAll addr (nodes ++ nodes') := by
  funext m
  cases m with
  | replpar a =>
    simp only [Function.comp_apply, linkAll]
    by_cases h : a = addr <;> simp [h]
  | _ => rfl

/-- The other nodes are as they were. -/
theorem linkAll_of_ne {addr : ℕ} {nodes : List Msmap} {m : Msmap} (h : m.addr ≠ addr) :
    linkAll addr nodes m = m := by
  cases m with
  | replpar a => rw [linkAll, if_neg (show ¬ a = addr from h)]
  | _ => rfl

theorem finishIn_of_ne {addr : ℕ} {usage : ℤ} {m : Msmap} (h : m.addr ≠ addr) :
    finishIn addr usage m = m := by
  cases m with
  | replpar a => rw [finishIn, if_neg (show ¬ a = addr from h)]
  | _ => rfl

theorem map_eq_self {f : Msmap → Msmap} {tab : List Msmap} {addr : ℕ}
    (hf : ∀ m : Msmap, m.addr ≠ addr → f m = m) (h : ∀ m ∈ tab, m.addr ≠ addr) : tab.map f = tab :=
  (List.map_congr_left fun m hm => hf m (h m hm)).trans (List.map_id tab)

@[simp]
theorem addr_linkAll (addr : ℕ) (nodes : List Msmap) (m : Msmap) :
    (linkAll addr nodes m).addr = m.addr := by
  cases m <;> rfl

/-- The calls of one part and then of the next. -/
theorem mapCalls_append (calls calls' : List MobileCall) (s : Mapping) :
    mapCalls (calls ++ calls') s = (mapCalls calls s).bind (mapCalls calls') :=
  List.foldlM_append

theorem mapCalls_cons (c : MobileCall) (calls : List MobileCall) (s : Mapping) :
    mapCalls (c :: calls) s = (c.apply s).bind (mapCalls calls) := rfl

/-- **A replicated PAR finishes**: its node stays on the map with what was mapped in it, unless
nothing was. -/
theorem mobilereplparfinish_eq {fresh k : ℕ} {replcount : ℕ+} {body : List Item} {tab : List Msmap}
    {outer : List (ℕ × ℤ)} (htab : ∀ m ∈ tab, m.addr < fresh) :
    mobilereplparfinish ⟨k, parsOf (fresh + 1) body ++
        .replpar fresh 0 (-1) (-1) replcount 0 (ownOf (fresh + 1) body) :: tab,
      (fresh, usageOf body) :: outer⟩ =
      some ⟨k, (Item.replpar replcount body).pars fresh ++ tab, outer⟩ := by
  have hpars : (parsOf (fresh + 1) body).map (finishIn fresh (usageOf body)) =
      parsOf (fresh + 1) body :=
    map_eq_self (fun m => finishIn_of_ne) fun m hm => by
      have := addr_parsOf hm
      omega
  have htab' : tab.map (finishIn fresh (usageOf body)) = tab :=
    map_eq_self (fun m => finishIn_of_ne) fun m hm => (htab m hm).ne
  have hnode : finishIn fresh (usageOf body)
      (.replpar fresh 0 (-1) (-1) replcount 0 (ownOf (fresh + 1) body)) =
      parNode fresh replcount body := by
    rw [finishIn, if_pos rfl, parNode]
  simp only [mobilereplparfinish, List.map_append, List.map_cons, hpars, htab', hnode, Item.pars]
  cases hcase : parsOf (fresh + 1) body with
  | nil =>
    have hreplptr : (parNode fresh replcount body).replptr = ownOf (fresh + 1) body := rfl
    have haddr : (parNode fresh replcount body).addr = fresh := rfl
    simp only [List.nil_append, hreplptr, haddr, and_true]
    split_ifs <;> rfl
  | cons top rest =>
    have htop := addr_parsOf (hcase ▸ List.mem_cons_self : top ∈ parsOf (fresh + 1) body)
    have hne : ¬ top.addr = fresh := by omega
    simp only [List.cons_append, hne, and_false, reduceCtorEq, if_false, List.append_assoc,
      List.nil_append]

/-- **A replicated PAR** takes the nodes of its body inside. -/
theorem mapCalls_replpar {fresh : ℕ} {replcount : ℕ+} {body : List Item} {tab : List Msmap}
    {stack : List (ℕ × ℤ)} {s' : Mapping} (htab : ∀ m ∈ tab, m.addr < fresh)
    (hstack : stack.length ≤ RPSTACKSIZE)
    (hbody : ∀ k a u (outer : List (ℕ × ℤ)) tab s', (∀ m ∈ tab, m.addr < k) → a < k →
      outer.length < RPSTACKSIZE →
      (mapCalls (callsOf body) ⟨k, tab, (a, u) :: outer⟩ = some s' ↔
        outer.length + 1 + depthOf body ≤ RPSTACKSIZE ∧ FitsAll u body ∧
          s' = ⟨k + nodesOf body, parsOf k body ++ tab.map (linkAll a (ownOf k body)),
            (a, u + usageOf body) :: outer⟩)) :
    mapCalls (Item.replpar replcount body).calls ⟨fresh, tab, stack⟩ = some s' ↔
      stack.length + (Item.replpar replcount body).depth ≤ RPSTACKSIZE ∧ FitsAll 0 body ∧
        s' = ⟨fresh + (Item.replpar replcount body).nodes,
          (Item.replpar replcount body).pars fresh ++ tab, stack⟩ := by
  rw [Item.calls, mapCalls_cons, MobileCall.apply, mobilereplparstart, Item.depth, Item.nodes]
  by_cases hfull : stack.length = RPSTACKSIZE
  · rw [if_pos hfull]
    exact iff_of_false (by simp) fun h => by omega
  · have hlink : linkAll fresh (ownOf (fresh + 1) body)
        (.replpar fresh 0 (-1) (-1) replcount 0 []) =
        .replpar fresh 0 (-1) (-1) replcount 0 (ownOf (fresh + 1) body) := by
      rw [linkAll, if_pos rfl, List.append_nil]
    have hstart : ∀ m ∈ Msmap.replpar fresh 0 (-1) (-1) replcount 0 [] :: tab, m.addr < fresh + 1 :=
      List.forall_mem_cons.mpr ⟨Nat.lt_succ_self _, fun m hm => (htab m hm).trans_le
        (Nat.le_succ _)⟩
    have hfinish : mapCalls [.mobilereplparfinish] ⟨fresh + 1 + nodesOf body,
        parsOf (fresh + 1) body ++ (Msmap.replpar fresh 0 (-1) (-1) replcount 0 [] :: tab).map
          (linkAll fresh (ownOf (fresh + 1) body)), (fresh, 0 + usageOf body) :: stack⟩ =
        some ⟨fresh + (nodesOf body + 1), (Item.replpar replcount body).pars fresh ++ tab,
          stack⟩ := by
      rw [mapCalls_cons, MobileCall.apply, List.map_cons, hlink,
        map_eq_self (fun m => linkAll_of_ne) fun m hm => (htab m hm).ne, zero_add,
        mobilereplparfinish_eq htab, Option.bind_some, Nat.add_assoc fresh, Nat.add_comm 1]
      rfl
    rw [if_neg hfull, Option.bind_some, mapCalls_append, Option.bind_eq_some_iff]
    simp only [hbody (fresh + 1) fresh 0 stack _ _ hstart (Nat.lt_succ_self _) (by omega)]
    constructor
    · rintro ⟨_, ⟨hdeep, hfits, rfl⟩, heq⟩
      exact ⟨by omega, hfits, Option.some.inj (heq.symm.trans hfinish)⟩
    · rintro ⟨hdeep, hfits, rfl⟩
      exact ⟨_, ⟨by omega, hfits, rfl⟩, hfinish⟩

theorem addr_pars {i : Item} {fresh : ℕ} {m : Msmap} (hm : m ∈ i.pars fresh) :
    fresh ≤ m.addr ∧ m.addr < fresh + i.nodes :=
  addr_parsOf (show m ∈ parsOf fresh [i] by rw [parsOf, parsOf]; exact hm)

/-- **Calls inside of a replicated PAR**: what is mapped in it is linked into its node, and the
nodes of the PARs in it go on the map of the procedure. -/
theorem mapCalls_inside : ∀ (items : List Item) (k a : ℕ) (u : ℤ) (outer : List (ℕ × ℤ))
    (tab : List Msmap) (s' : Mapping), (∀ m ∈ tab, m.addr < k) → a < k →
    outer.length < RPSTACKSIZE →
    (mapCalls (callsOf items) ⟨k, tab, (a, u) :: outer⟩ = some s' ↔
      outer.length + 1 + depthOf items ≤ RPSTACKSIZE ∧ FitsAll u items ∧
        s' = ⟨k + nodesOf items, parsOf k items ++ tab.map (linkAll a (ownOf k items)),
          (a, u + usageOf items) :: outer⟩)
  | [], k, a, u, outer, tab, s', _, _, h => by
    have hfits : FitsAll u [] := by
      rw [FitsAll]
      trivial
    have hnil : mapCalls (callsOf []) ⟨k, tab, (a, u) :: outer⟩ =
        some ⟨k, tab, (a, u) :: outer⟩ := rfl
    rw [hnil, Option.some.injEq, depthOf, nodesOf, parsOf, ownOf, linkAll_nil, List.map_id, usageOf,
      List.map_nil, List.sum_nil, Int.add_zero, Nat.add_zero, List.nil_append, eq_comm]
    exact ⟨fun heq => ⟨by omega, hfits, heq⟩, fun heq => heq.2.2⟩
  | i :: rest, k, a, u, outer, tab, s', htab, ha, h => by
    have hitem : ∀ s₁, mapCalls i.calls ⟨k, tab, (a, u) :: outer⟩ = some s₁ ↔
        outer.length + 1 + i.depth ≤ RPSTACKSIZE ∧ i.Fits u ∧
          s₁ = ⟨k + i.nodes, i.pars k ++ tab.map (linkAll a (i.own k)),
            (a, u + i.usage) :: outer⟩ := by
      intro s₁
      cases i with
      | var nptr =>
        rw [Item.calls, mapCalls_cons, MobileCall.apply, newmobilevar, Item.depth, Item.Fits]
        simp only [Option.bind_eq_some_iff, Option.map_eq_some_iff, int32_eq_some]
        constructor
        · rintro ⟨_, ⟨_, ⟨rfl, hint⟩, _, ⟨rfl, hint'⟩, rfl⟩, hs⟩
          exact ⟨by omega, ⟨hint, hint'⟩, (Option.some.inj hs).symm⟩
        · rintro ⟨-, ⟨hint, hint'⟩, rfl⟩
          exact ⟨_, ⟨_, ⟨rfl, hint⟩, _, ⟨rfl, hint'⟩, rfl⟩, rfl⟩
      | inst nwords =>
        rw [Item.calls, mapCalls_cons, MobileCall.apply, newmobileinstance, Item.depth, Item.Fits,
          Item.own, Item.nodes, Item.usage]
        by_cases h0 : nwords = 0
        · rw [if_pos h0, if_pos h0, if_pos h0, linkAll_nil, List.map_id, h0, Int.add_zero]
          constructor
          · intro hs
            exact ⟨by omega, .inl rfl, (Option.some.inj hs).symm⟩
          · rintro ⟨-, -, rfl⟩
            rfl
        · rw [if_neg h0, if_neg h0, if_neg h0, or_iff_right h0]
          simp only [Option.bind_eq_some_iff, Option.map_eq_some_iff, int32_eq_some]
          constructor
          · rintro ⟨_, ⟨_, ⟨rfl, hint⟩, rfl⟩, hs⟩
            exact ⟨by omega, hint, (Option.some.inj hs).symm⟩
          · rintro ⟨-, hint, rfl⟩
            exact ⟨_, ⟨_, ⟨rfl, hint⟩, rfl⟩, rfl⟩
      | replpar replcount body =>
        rw [mapCalls_replpar htab (by exact h) fun k a u outer tab s' =>
          mapCalls_inside body k a u outer tab s', Item.own, linkAll_nil, List.map_id, Item.Fits,
          Item.usage, add_zero]
        rfl
    have hnext : ∀ m ∈ i.pars k ++ tab.map (linkAll a (i.own k)), m.addr < k + i.nodes := by
      intro m hm
      rcases List.mem_append.mp hm with hm | hm
      · exact (addr_pars hm).2
      · obtain ⟨m', hm', rfl⟩ := List.mem_map.mp hm
        rw [addr_linkAll]
        exact (htab m' hm').trans_le (Nat.le_add_right _ _)
    have hpars : (i.pars k).map (linkAll a (ownOf (k + i.nodes) rest)) = i.pars k :=
      map_eq_self (fun m => linkAll_of_ne) fun m hm => by
        have := addr_pars hm
        omega
    have ih := fun s₁ => mapCalls_inside rest (k + i.nodes) a (u + i.usage) outer _ s₁ hnext
      (by omega) h
    rw [List.map_append, hpars, List.map_map, linkAll_linkAll, ← List.append_assoc] at ih
    rw [callsOf, mapCalls_append, Option.bind_eq_some_iff, depthOf, FitsAll, nodesOf, usageOf_cons,
      ownOf, parsOf, ← Nat.add_assoc, ← add_assoc u]
    simp only [hitem]
    constructor
    · rintro ⟨_, ⟨hdeep, hfits, rfl⟩, heq⟩
      obtain ⟨hdeep', hfits', rfl⟩ := (ih s').mp heq
      exact ⟨by omega, ⟨hfits, hfits'⟩, rfl⟩
    · rintro ⟨hdeep, ⟨hfits, hfits'⟩, rfl⟩
      exact ⟨_, ⟨by omega, hfits, rfl⟩, (ih _).mpr ⟨by omega, hfits', rfl⟩⟩

/-- **Calls with no replicated PAR around.** -/
theorem mapCalls_top : ∀ (items : List Item) (k : ℕ) (tab : List Msmap) (s' : Mapping),
    (∀ m ∈ tab, m.addr < k) →
    (mapCalls (callsOf items) ⟨k, tab, []⟩ = some s' ↔
      depthOf items ≤ RPSTACKSIZE ∧ (∀ i ∈ items, i.FitsTop) ∧
        s' = ⟨k + nodesOf items, topOf k items ++ tab, []⟩)
  | [], k, tab, s', _ => by
    rw [depthOf]
    constructor
    · intro hs
      exact ⟨Nat.zero_le _, List.forall_mem_nil _, (Option.some.inj hs).symm⟩
    · rintro ⟨-, -, rfl⟩
      rfl
  | i :: rest, k, tab, s', htab => by
    have hitem : ∀ s₁, mapCalls i.calls ⟨k, tab, []⟩ = some s₁ ↔
        i.depth ≤ RPSTACKSIZE ∧ i.FitsTop ∧
          s₁ = ⟨k + i.nodes, i.own k ++ i.pars k ++ tab, []⟩ := by
      intro s₁
      cases i with
      | var nptr =>
        rw [Item.depth, Item.FitsTop]
        · constructor
          · intro hs
            exact ⟨Nat.zero_le _, trivial, (Option.some.inj hs).symm⟩
          · rintro ⟨-, -, rfl⟩
            rfl
        · simp
      | inst nwords =>
        rw [Item.depth, Item.FitsTop, Item.calls, mapCalls_cons, MobileCall.apply,
          newmobileinstance, Item.own, Item.nodes]
        · constructor
          · intro hs
            refine ⟨Nat.zero_le _, trivial, ?_⟩
            split_ifs at hs ⊢
            · exact (Option.some.inj hs).symm
            · exact (Option.some.inj hs).symm
          · rintro ⟨-, -, rfl⟩
            split_ifs <;> rfl
        · simp
      | replpar replcount body =>
        rw [mapCalls_replpar htab (Nat.zero_le _) fun k a u outer tab s' =>
          mapCalls_inside body k a u outer tab s', List.length_nil, Nat.zero_add, Item.own,
          Item.FitsTop]
        rfl
    have hnext : ∀ m ∈ i.own k ++ i.pars k ++ tab, m.addr < k + i.nodes := by
      intro m hm
      rcases List.mem_append.mp hm with hm | hm
      · rcases List.mem_append.mp hm with hm | hm
        · have := addr_own hm
          omega
        · exact (addr_pars hm).2
      · exact (htab m hm).trans_le (Nat.le_add_right _ _)
    have ih := fun s₁ => mapCalls_top rest (k + i.nodes) _ s₁ hnext
    rw [callsOf, mapCalls_append, Option.bind_eq_some_iff, depthOf, nodesOf, topOf,
      List.forall_mem_cons, ← Nat.add_assoc, List.append_assoc]
    simp only [hitem]
    constructor
    · rintro ⟨_, ⟨hdeep, hfits, rfl⟩, heq⟩
      obtain ⟨hdeep', hfits', rfl⟩ := (ih s').mp heq
      exact ⟨by omega, ⟨hfits, hfits'⟩, rfl⟩
    · rintro ⟨hdeep, ⟨hfits, hfits'⟩, rfl⟩
      exact ⟨_, ⟨by omega, hfits, rfl⟩, (ih _).mpr ⟨by omega, hfits', rfl⟩⟩

/-- A procedure has a layout where the stack and the integers suffice. -/
theorem layout_eq_some {items : List Item} {map : List Msmap} :
    layout items = some map ↔ depthOf items ≤ RPSTACKSIZE ∧ (∀ i ∈ items, i.FitsTop) ∧
      bindmobilespace (msmapMergesort (topOf 0 items)) 0 = some map := by
  rw [layout, Option.bind_eq_some_iff]
  simp only [mapCalls_top items 0 [] _ (List.forall_mem_nil _), List.append_nil]
  constructor
  · rintro ⟨_, ⟨hdeep, hfits, rfl⟩, hmap⟩
    exact ⟨hdeep, hfits, hmap⟩
  · rintro ⟨hdeep, hfits, hmap⟩
    exact ⟨_, ⟨hdeep, hfits, rfl⟩, hmap⟩

/-! ## Leaves and nodes -/

/-- The leaves have the addresses in between. -/
theorem leavesOf_bounds : ∀ {items : List Item} {fresh : ℕ} {counts : List ℕ} {l : Leaf},
    l ∈ leavesOf fresh counts items → fresh ≤ l.addr ∧ l.addr < fresh + nodesOf items
  | [], _, _, _, hl => by cases hl
  | i :: rest, fresh, counts, l, hl => by
    rw [nodesOf]
    rw [leavesOf] at hl
    rcases List.mem_append.mp hl with hl | hl
    · cases i with
      | var nptr =>
        obtain rfl := List.mem_singleton.mp hl
        rw [Item.nodes]
        dsimp only
        omega
      | inst nwords =>
        rw [Item.leaves] at hl
        rw [Item.nodes]
        split_ifs at hl ⊢ with h0
        · cases hl
        · obtain rfl := List.mem_singleton.mp hl
          dsimp only
          omega
      | replpar replcount body =>
        have := leavesOf_bounds (l := l) hl
        rw [Item.nodes]
        omega
    · have := leavesOf_bounds hl
      omega

/-- A leaf of an item, as one of the list of that item. -/
theorem leaves_bounds {i : Item} {fresh : ℕ} {counts : List ℕ} {l : Leaf}
    (hl : l ∈ i.leaves fresh counts) : fresh ≤ l.addr ∧ l.addr < fresh + i.nodes :=
  leavesOf_bounds (show l ∈ leavesOf fresh counts [i] by
    rw [leavesOf, leavesOf, List.append_nil]
    exact hl)

/-- Every variable and every instance that is mapped takes words, if it does not take less than
none. -/
theorem weight_pos : ∀ {items : List Item} {fresh : ℕ} {counts : List ℕ} {l : Leaf},
    l ∈ leavesOf fresh counts items → 0 ≤ l.words → 0 < l.weight
  | [], _, _, _, hl, _ => by cases hl
  | i :: rest, fresh, counts, l, hl, hwords => by
    rw [leavesOf] at hl
    rcases List.mem_append.mp hl with hl | hl
    · cases i with
      | var nptr =>
        obtain rfl := List.mem_singleton.mp hl
        exact Int.lt_add_one_of_le hwords
      | inst nwords =>
        rw [Item.leaves] at hl
        split_ifs at hl with h0
        · cases hl
        · obtain rfl := List.mem_singleton.mp hl
          rw [Leaf.weight, if_neg Bool.false_ne_true, add_zero]
          exact lt_of_le_of_ne hwords (Ne.symm h0)
      | replpar replcount body => exact weight_pos (l := l) hl hwords
    · exact weight_pos hl hwords

/-- No replicated PAR around a leaf is empty. -/
theorem counts_pos : ∀ {items : List Item} {fresh : ℕ} {counts : List ℕ} {l : Leaf},
    (∀ n ∈ counts, 0 < n) → l ∈ leavesOf fresh counts items → ∀ n ∈ l.counts, 0 < n
  | [], _, _, _, _, hl => by cases hl
  | i :: rest, fresh, counts, l, h, hl => by
    rw [leavesOf] at hl
    rcases List.mem_append.mp hl with hl | hl
    · cases i with
      | var nptr => exact List.mem_singleton.mp hl ▸ h
      | inst nwords =>
        rw [Item.leaves] at hl
        split_ifs at hl with h0
        · cases hl
        · exact List.mem_singleton.mp hl ▸ h
      | replpar replcount body =>
        exact counts_pos (l := l) (List.forall_mem_cons.mpr ⟨replcount.pos, h⟩) hl
    · exact counts_pos h hl

/-- **Different leaves have different nodes.** -/
theorem leavesOf_inj : ∀ {items : List Item} {fresh : ℕ} {counts : List ℕ} {l l' : Leaf},
    l ∈ leavesOf fresh counts items → l' ∈ leavesOf fresh counts items → l.addr = l'.addr → l = l'
  | [], _, _, _, _, hl, _, _ => by cases hl
  | i :: rest, fresh, counts, l, l', hl, hl', heq => by
    rw [leavesOf] at hl hl'
    rcases List.mem_append.mp hl with hl | hl
    · have hb := leaves_bounds hl
      rcases List.mem_append.mp hl' with hl' | hl'
      · cases i with
        | var nptr => exact (List.mem_singleton.mp hl).trans (List.mem_singleton.mp hl').symm
        | inst nwords =>
          rw [Item.leaves] at hl hl'
          split_ifs at hl hl' with h0
          · cases hl
          · exact (List.mem_singleton.mp hl).trans (List.mem_singleton.mp hl').symm
        | replpar replcount body => exact leavesOf_inj (l := l) hl hl' heq
      · have := leavesOf_bounds hl'
        omega
    · have hb := leavesOf_bounds hl
      rcases List.mem_append.mp hl' with hl' | hl'
      · have := leaves_bounds hl'
        omega
      · exact leavesOf_inj hl hl' heq

/-- The node is that of the leaf. -/
structure Msmap.Of (m : Msmap) (l : Leaf) : Prop where
  addr : m.addr = l.addr
  words : m.words = l.words
  isVar : m.isVar = l.isVar

def Msmap.isPar : Msmap → Bool
  | .replpar .. => true
  | _ => false

def Msmap.replcount : Msmap → ℤ
  | .replpar _ _ _ _ replcount _ _ => replcount
  | _ => 0

theorem isPar_own {fresh : ℕ} {i : Item} {m : Msmap} (hm : m ∈ i.own fresh) : m.isPar = false := by
  cases i with
  | var nptr => exact List.mem_singleton.mp hm ▸ rfl
  | inst nwords =>
    rw [Item.own] at hm
    split_ifs at hm with h0
    · cases hm
    · exact List.mem_singleton.mp hm ▸ rfl
  | replpar => cases hm

theorem isPar_ownOf : ∀ {items : List Item} {fresh : ℕ} {m : Msmap}, m ∈ ownOf fresh items →
    m.isPar = false
  | _ :: _, _, _, hm => (List.mem_append.mp hm).elim isPar_ownOf isPar_own

/-- Those of a PAR are those of its body and its own. -/
theorem mem_pars_replpar {fresh : ℕ} {replcount : ℕ+} {body : List Item} {m : Msmap}
    (hm : m ∈ (Item.replpar replcount body).pars fresh) :
    m ∈ parsOf (fresh + 1) body ∨ m = parNode fresh replcount body := by
  rw [Item.pars] at hm
  split_ifs at hm with h0
  · cases hm
  · exact (List.mem_append.mp hm).imp_right List.mem_singleton.mp

/-- The node of a replicated PAR, and of one that is in the list or is around others of it. -/
theorem mem_parsOf : ∀ {items : List Item} {fresh : ℕ} {m : Msmap}, m ∈ parsOf fresh items →
    ∃ k replcount body, m = parNode k replcount body ∧ fresh ≤ k ∧
      k + 1 + nodesOf body ≤ fresh + nodesOf items ∧ (SizedAll items → SizedAll body)
  | [], _, _, hm => by cases hm
  | i :: rest, fresh, m, hm => by
    rw [parsOf] at hm
    rw [nodesOf, SizedAll]
    rcases List.mem_append.mp hm with hm | hm
    · obtain ⟨k, n, body, heq, hk, hk', hsized⟩ := mem_parsOf hm
      exact ⟨k, n, body, heq, by omega, by omega, fun h => hsized h.2⟩
    · cases i with
      | var => cases hm
      | inst => cases hm
      | replpar replcount body' =>
        rw [Item.nodes, Item.Sized]
        rcases mem_pars_replpar hm with hm | rfl
        · obtain ⟨k, n, body, heq, hk, hk', hsized⟩ := mem_parsOf hm
          exact ⟨k, n, body, heq, by omega, by omega, fun h => hsized h.1⟩
        · exact ⟨fresh, replcount, body', rfl, le_rfl, by omega, fun h => h.1⟩

theorem isPar_parsOf {items : List Item} {fresh : ℕ} {m : Msmap} (hm : m ∈ parsOf fresh items) :
    m.isPar = true := by
  obtain ⟨k, n, body, rfl, -⟩ := mem_parsOf hm
  rfl

theorem addr_replptr {items : List Item} {fresh : ℕ} {r m : Msmap} (hr : r ∈ parsOf fresh items)
    (hm : m ∈ r.replptr) : fresh ≤ m.addr ∧ m.addr < fresh + nodesOf items := by
  obtain ⟨k, n, body, rfl, hk, hk', -⟩ := mem_parsOf hr
  have := addr_ownOf (show m ∈ ownOf (k + 1) body from hm)
  omega

theorem mem_topOf {items : List Item} {fresh : ℕ} {m : Msmap} :
    m ∈ topOf fresh items ↔ m ∈ ownOf fresh items ∨ m ∈ parsOf fresh items :=
  (topOf_perm fresh items).mem_iff.trans List.mem_append

/-- **A leaf has its node** on the map of the procedure, if no replicated PAR is around it in the
list, and else inside of the node of the innermost one. -/
theorem leaf_node : ∀ {items : List Item} {fresh : ℕ} {counts : List ℕ} {l : Leaf},
    l ∈ leavesOf fresh counts items →
      (l.counts = counts ∧ ∃ m ∈ ownOf fresh items, m.Of l) ∨
      ∃ r ∈ parsOf fresh items, ∃ n outer, l.counts = n :: outer ∧ r.replcount = n ∧
        ∃ m ∈ r.replptr, m.Of l
  | [], _, _, _, hl => by cases hl
  | i :: rest, fresh, counts, l, hl => by
    rw [leavesOf] at hl
    rcases List.mem_append.mp hl with hl | hl
    · cases i with
      | var nptr =>
        obtain rfl := List.mem_singleton.mp hl
        exact .inl ⟨rfl, _, List.mem_append_right _ (List.mem_singleton_self _), rfl, rfl, rfl⟩
      | inst nwords =>
        rw [Item.leaves] at hl
        split_ifs at hl with h0
        · cases hl
        · obtain rfl := List.mem_singleton.mp hl
          refine .inl ⟨rfl, .inst fresh nwords (-1) (-1), List.mem_append_right _ ?_, rfl, rfl, rfl⟩
          rw [Item.own, if_neg h0]
          exact List.mem_singleton_self _
      | replpar replcount body =>
        right
        rw [parsOf]
        rcases leaf_node (l := l) hl with ⟨hcounts, m, hm, hof⟩ | ⟨r, hr, h⟩
        · refine ⟨parNode fresh replcount body, List.mem_append_right _ ?_, replcount, counts,
            hcounts, rfl, m, hm, hof⟩
          rw [Item.pars, if_neg fun h => by rw [h.2.1] at hm; cases hm]
          exact List.mem_append_right _ (List.mem_singleton_self _)
        · refine ⟨r, List.mem_append_right _ ?_, h⟩
          rw [Item.pars, if_neg fun h => by rw [h.2.2] at hr; cases hr]
          exact List.mem_append_left _ hr
    · rcases leaf_node hl with ⟨hcounts, m, hm, hof⟩ | ⟨r, hr, h⟩
      · exact .inl ⟨hcounts, m, List.mem_append_left _ hm, hof⟩
      · exact .inr ⟨r, by rw [parsOf]; exact List.mem_append_left _ hr, h⟩

/-- **A node on the map of the procedure** at the place of a leaf is the leaf's, and no replicated
PAR is around the leaf in the list. -/
theorem topOf_of : ∀ {items : List Item} {fresh : ℕ} {counts : List ℕ} {l : Leaf} {m : Msmap},
    l ∈ leavesOf fresh counts items → m ∈ topOf fresh items → m.addr = l.addr →
      l.counts = counts ∧ m.isPar = false ∧ m.Of l
  | [], _, _, _, _, hl, _, _ => by cases hl
  | i :: rest, fresh, counts, l, m, hl, hm, heq => by
    rw [leavesOf] at hl
    rw [topOf] at hm
    rcases List.mem_append.mp hl with hl | hl
    · have hb := leaves_bounds hl
      rcases List.mem_append.mp hm with hm | hm
      · have hm' : fresh + i.nodes ≤ m.addr := (mem_topOf.mp hm).elim (fun h => (addr_ownOf h).1)
          fun h => (addr_parsOf h).1
        omega
      · cases i with
        | var nptr =>
          obtain rfl := List.mem_singleton.mp hl
          obtain rfl := List.mem_singleton.mp hm
          exact ⟨rfl, rfl, rfl, rfl, rfl⟩
        | inst nwords =>
          rw [Item.leaves] at hl
          rw [Item.own, Item.pars, List.append_nil] at hm
          split_ifs at hl hm with h0
          · cases hl
          · obtain rfl := List.mem_singleton.mp hl
            obtain rfl := List.mem_singleton.mp hm
            exact ⟨rfl, rfl, rfl, rfl, rfl⟩
        | replpar replcount body =>
          have hleaf : l ∈ leavesOf (fresh + 1) (replcount :: counts) body := hl
          have hl' := leavesOf_bounds hleaf
          rcases mem_pars_replpar (show m ∈ Item.pars fresh _ from hm) with hm | rfl
          · have hpar := (topOf_of hleaf (mem_topOf.mpr (.inr hm)) heq).2.1
            rw [isPar_parsOf hm] at hpar
            cases hpar
          · have haddr : (parNode fresh replcount body).addr = fresh := rfl
            omega
    · have hb := leavesOf_bounds hl
      rcases List.mem_append.mp hm with hm | hm
      · exact topOf_of hl hm heq
      · rcases List.mem_append.mp hm with hm | hm
        · have := addr_own hm
          omega
        · have := addr_pars hm
          omega

/-- **A node inside of that of a replicated PAR** at the place of a leaf is the leaf's, and that PAR
is the innermost one around it. -/
theorem replptr_of : ∀ {items : List Item} {fresh : ℕ} {counts : List ℕ} {l : Leaf} {r m : Msmap},
    l ∈ leavesOf fresh counts items → r ∈ parsOf fresh items → m ∈ r.replptr → m.addr = l.addr →
      (∃ n outer, l.counts = n :: outer ∧ r.replcount = n) ∧ m.Of l
  | [], _, _, _, _, _, hl, _, _, _ => by cases hl
  | i :: rest, fresh, counts, l, r, m, hl, hr, hm, heq => by
    rw [leavesOf] at hl
    rw [parsOf] at hr
    rcases List.mem_append.mp hl with hl | hl
    · have hb := leaves_bounds hl
      rcases List.mem_append.mp hr with hr | hr
      · have := addr_replptr hr hm
        omega
      · cases i with
        | var => cases hr
        | inst => cases hr
        | replpar replcount body =>
          have hleaf : l ∈ leavesOf (fresh + 1) (replcount :: counts) body := hl
          rcases mem_pars_replpar hr with hr | rfl
          · exact replptr_of hleaf hr hm heq
          · obtain ⟨hcounts, -, hof⟩ := topOf_of hleaf (mem_topOf.mpr (.inl hm)) heq
            exact ⟨⟨replcount, counts, hcounts, rfl⟩, hof⟩
    · have hb := leavesOf_bounds hl
      rcases List.mem_append.mp hr with hr | hr
      · exact replptr_of hl hr hm heq
      · cases i with
        | var => cases hr
        | inst => cases hr
        | replpar replcount body =>
          have hr' : r ∈ parsOf fresh [.replpar replcount body] := by
            rw [parsOf, parsOf]
            exact hr
          have := addr_replptr hr' hm
          rw [nodesOf, nodesOf] at this
          omega

/-! ## Words that are not negative -/

/-- Sizes are those of variables and instances. -/
theorem sizedAll_iff : ∀ {items : List Item} {fresh : ℕ} {counts : List ℕ},
    SizedAll items ↔ ∀ l ∈ leavesOf fresh counts items, 0 ≤ l.words
  | [], _, _ => by
    rw [SizedAll, leavesOf]
    exact iff_of_true trivial (List.forall_mem_nil _)
  | i :: rest, fresh, counts => by
    have hitem : i.Sized ↔ ∀ l ∈ i.leaves fresh counts, 0 ≤ l.words := by
      cases i with
      | var nptr =>
        rw [Item.Sized, Item.leaves]
        exact iff_of_true trivial (List.forall_mem_singleton.mpr (Int.natCast_nonneg _))
      | inst nwords =>
        rw [Item.Sized, Item.leaves]
        split_ifs with h0
        · exact iff_of_true h0.ge (List.forall_mem_nil _)
        · rw [List.forall_mem_singleton]
      | replpar replcount body => exact sizedAll_iff
    rw [SizedAll, leavesOf, List.forall_mem_append, hitem,
      sizedAll_iff]

theorem usageOf_nonneg : ∀ {items : List Item}, SizedAll items → 0 ≤ usageOf items
  | [], _ => le_rfl
  | i :: rest, h => by
    obtain ⟨hi, hrest⟩ : i.Sized ∧ SizedAll rest := by rwa [SizedAll] at h
    have := usageOf_nonneg hrest
    rw [usageOf_cons]
    cases i with
    | var nptr =>
      rw [Item.usage]
      omega
    | inst nwords =>
      rw [Item.Sized] at hi
      rw [Item.usage]
      omega
    | replpar => rwa [Item.usage, zero_add]

theorem words_ownOf : ∀ {items : List Item} {fresh : ℕ} {m : Msmap}, SizedAll items →
    m ∈ ownOf fresh items → 0 ≤ m.words
  | i :: rest, fresh, m, h, hm => by
    obtain ⟨hi, hrest⟩ : i.Sized ∧ SizedAll rest := by rwa [SizedAll] at h
    rcases List.mem_append.mp hm with hm | hm
    · exact words_ownOf hrest hm
    · cases i with
      | var nptr => exact List.mem_singleton.mp hm ▸ Int.natCast_nonneg _
      | inst nwords =>
        rw [Item.own] at hm
        split_ifs at hm with h0
        · cases hm
        · rw [Item.Sized] at hi
          exact List.mem_singleton.mp hm ▸ hi
      | replpar => cases hm

end Occ21

end Kroc
