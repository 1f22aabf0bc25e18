import Kroc.Lib.DoublyLinked
import Kroc.Lib.Returns
import Kroc.Lib.Transition

/-!
# Slinker/Lloh — the linked list on a hash table

`lloh%` of `slinker/lloh.ss`: nodes under ids, linked both ways, with a head and a tail.  Ids are
the numbers that `gensym` counts; an error is `none`, and so is a walk that its bound does not
suffice for.  The metadata has nothing to do with the list and is left out.

`Shows` says that an object is a sequence of ids and objects.  The operations that need a node on
the other side of a place fail at the ends, `cons` and `snoc` forget to return the id of a first
element, and the two searches return each other's result.
-/

open DoublyLinked

namespace Kroc

namespace Slinker

/-- `list-node` -/
structure ListNode (α : Type*) where
  prev : Option ℕ
  next : Option ℕ
  id : ℕ
  obj : α

/-- `lloh%`, without its metadata; `gensym` is the next id. -/
structure Lloh (α : Type*) where
  h : ℕ → Option (ListNode α)
  head : Option ℕ
  tail : Option ℕ
  gensym : ℕ

namespace Lloh

variable {α : Type*}

/-- `(new lloh%)` -/
def empty (gensym : ℕ) : Lloh α := ⟨fun _ => none, none, none, gensym⟩

/-- `get-node` -/
def getNode (s : Lloh α) (nodeId : Option ℕ) : Option (ListNode α) := nodeId.bind s.h

/-- `get` -/
def get (s : Lloh α) (nodeId : ℕ) : Option α := (s.h nodeId).map ListNode.obj

/-- `insert` -/
def insert (s : Lloh α) (node : ListNode α) : Lloh α :=
  { s with h := Function.update s.h node.id (some node) }

/-- `unsafe-remove` -/
def unsafeRemove (s : Lloh α) (id : ℕ) : Lloh α := { s with h := Function.update s.h id none }

/-- `set-list-node-prev!` of a node in the table, -/
def setPrev (s : Lloh α) (id : ℕ) (prev : Option ℕ) : Lloh α :=
  { s with h := Function.update s.h id ((s.h id).map fun n => { n with prev := prev }) }

/-- `set-list-node-next!`, -/
def setNext (s : Lloh α) (id : ℕ) (next : Option ℕ) : Lloh α :=
  { s with h := Function.update s.h id ((s.h id).map fun n => { n with next := next }) }

/-- and `set-list-node-obj!`. -/
def setObj (s : Lloh α) (id : ℕ) (obj : α) : Lloh α :=
  { s with h := Function.update s.h id ((s.h id).map fun n => { n with obj := obj }) }

/-- What an operation returns, `none` for void, and the object after it. -/
abbrev Result (α : Type*) := Option (Option ℕ × Lloh α)

/-- `cons` -/
def cons (s : Lloh α) (obj : α) : Result α :=
  let headNode := s.getNode s.head
  let id := s.gensym
  let s := { s with gensym := id + 1 }
  match headNode with
  | none =>
    some (none, { s with head := some id, tail := some id }.insert ⟨none, none, id, obj⟩)
  | some headNode =>
    let s' := (s.setPrev headNode.id (some id)).insert ⟨none, s.head, id, obj⟩
    some (some id, { s' with head := some id })

/-- `snoc` -/
def snoc (s : Lloh α) (obj : α) : Result α :=
  let tailNode := s.getNode s.tail
  let id := s.gensym
  let s := { s with gensym := id + 1 }
  match tailNode with
  | none => s.cons obj
  | some tailNode =>
    let s' := (s.setNext tailNode.id (some id)).insert ⟨s.tail, none, id, obj⟩
    some (some id, { s' with tail := some id })

/-- `insert/after` -/
def insertAfter (s : Lloh α) (id : ℕ) (obj : α) : Result α :=
  match s.h id with
  | none => none
  | some n =>
    match s.getNode n.next with
    | none => none
    | some n' =>
      let newId := s.gensym
      let s := { s with gensym := newId + 1 }
      let newNode := ⟨n'.prev, n.next, newId, obj⟩
      some (some newId, ((s.setPrev n'.id (some newId)).setNext n.id (some newId)).insert newNode)

/-- `insert/at` -/
def insertAt (s : Lloh α) (id : ℕ) (obj : α) : Result α :=
  match s.h id with
  | none => none
  | some n =>
    match s.getNode n.next, s.getNode n.prev with
    | some n', some n'' =>
      let newId := s.gensym
      let s := { s with gensym := newId + 1 }
      let newNode := ⟨n.prev, n.next, newId, obj⟩
      some (some newId, (((s.setPrev n'.id (some newId)).setNext n''.id (some newId)).unsafeRemove
        id).insert newNode)
    | _, _ => none

/-- `remove` -/
def remove (s : Lloh α) (id : ℕ) : Result α :=
  match s.h id with
  | none => none
  | some n =>
    match s.getNode n.next, s.getNode n.prev with
    | some n', some n'' =>
      some (none, ((s.setPrev n'.id (some n''.id)).setNext n''.id (some n'.id)).unsafeRemove id)
    | _, _ => none

/-- `replace` -/
def replace (s : Lloh α) (id : ℕ) (obj : α) : Result α :=
  match s.h id with
  | none => none
  | some n => some (none, s.setObj n.id obj)

/-- `list-node-next` and `list-node-prev` as `acc`, with the object. -/
def read (s : Lloh α) (acc : ListNode α → Option ℕ) (id : ℕ) : Option (Option ℕ × α) :=
  (s.h id).map fun n => (acc n, n.obj)

/-- The ids and objects that `(foreach '-> lam)` gives to `lam`, -/
def forward (s : Lloh α) (fuel : ℕ) : Option (List (ℕ × α)) :=
  walk (s.read ListNode.next) fuel s.head

/-- and those that `(foreach '<- lam)` does. -/
def backward (s : Lloh α) (fuel : ℕ) : Option (List (ℕ × α)) :=
  walk (s.read ListNode.prev) fuel s.tail

/-- `->list` -/
def toList (s : Lloh α) (fuel : ℕ) : Option (List α) :=
  (walk (s.read ListNode.prev) fuel s.tail).map fun visited =>
    visited.foldl (fun ls x => x.2 :: ls) []

/-- `(if (eh? o) (set! loc ptr))` at each element. -/
def setLoc (eh : α → Bool) (visited : List (ℕ × α)) : Option ℕ :=
  visited.foldl (fun loc x => if eh x.2 then some x.1 else loc) none

/-- `find/first` -/
def findFirst (s : Lloh α) (eh : α → Bool) (fuel : ℕ) : Option (Option ℕ) :=
  (s.forward fuel).map (setLoc eh)

/-- `find/last` -/
def findLast (s : Lloh α) (eh : α → Bool) (fuel : ℕ) : Option (Option ℕ) :=
  (s.backward fuel).map (setLoc eh)

/-! ## What the list is -/

/-- A node of the table. -/
def Cell (s : Lloh α) (i : ℕ) (p q : Option ℕ) (a : α) : Prop := s.h i = some ⟨p, q, i, a⟩

/-- **The object is a sequence** of ids and objects, linked both ways from head to tail. -/
structure Represents (s : Lloh α) (l : List (ℕ × α)) : Prop where
  nodup : (l.map Prod.fst).Nodup
  lt_gensym : ∀ i ∈ l.map Prod.fst, i < s.gensym
  segment : Segment s.Cell none l none
  head : s.head = first l none
  tail : s.tail = last none l
  none_of_not_mem : ∀ i, i ∉ l.map Prod.fst → s.h i = none

variable {s s' : Lloh α} {l a b : List (ℕ × α)} {i id : ℕ} {obj c : α} {x y z : ℕ × α}

theorem represents_empty (gensym : ℕ) : Represents (empty gensym : Lloh α) [] :=
  ⟨List.nodup_nil, by simp, trivial, rfl, rfl, fun _ _ => rfl⟩

namespace Represents

/-- A node that is in the sequence is in the table. -/
theorem exists_node (hs : s.Represents l) (hx : x ∈ l) :
    ∃ p q, s.h x.1 = some ⟨p, q, x.1, x.2⟩ := hs.segment.exists_cell hx

/-- **The node at a place** knows its neighbours. -/
theorem node (hs : s.Represents (a ++ x :: b)) :
    s.h x.1 = some ⟨last none a, first b none, x.1, x.2⟩ := (segment_append.mp hs.segment).2.1

theorem node_second (hs : s.Represents (a ++ x :: y :: b)) :
    s.h y.1 = some ⟨some x.1, first b none, y.1, y.2⟩ := (segment_append.mp hs.segment).2.2.1

theorem node_third (hs : s.Represents (a ++ x :: y :: z :: b)) :
    s.h z.1 = some ⟨some y.1, first b none, z.1, z.2⟩ := (segment_append.mp hs.segment).2.2.2.1

/-- The ids of a middle are different, and `gensym` is none of them. -/
theorem nodup_middle {m : List (ℕ × α)} (hs : s.Represents (a ++ (m ++ b))) :
    (s.gensym :: m.map Prod.fst).Nodup := by
  have hnodup := hs.nodup
  have hlt := hs.lt_gensym
  rw [List.map_append, List.map_append] at hnodup hlt
  refine List.nodup_cons.mpr ⟨fun h => ?_,
    (List.nodup_append.mp (List.nodup_append.mp hnodup).2.1).1⟩
  exact (hlt _ (List.mem_append_right _ (List.mem_append_left _ h))).ne rfl

theorem mem_iff (hs : s.Represents l) : i ∈ l.map Prod.fst ↔ ∃ n, s.h i = some n := by
  refine ⟨fun hi => ?_, fun ⟨n, hn⟩ => ?_⟩
  · obtain ⟨x, hx, rfl⟩ := List.mem_map.mp hi
    obtain ⟨p, q, hnode⟩ := hs.exists_node hx
    exact ⟨_, hnode⟩
  · by_contra hi
    rw [hs.none_of_not_mem i hi] at hn
    cases hn

theorem gensym_not_mem (hs : s.Represents l) : s.gensym ∉ l.map Prod.fst :=
  fun h => (hs.lt_gensym _ h).ne rfl

end Represents

/-! ## What a write changes -/

@[simp]
theorem setPrev_h_self (s : Lloh α) (id : ℕ) (prev : Option ℕ) :
    (s.setPrev id prev).h id = (s.h id).map fun n => { n with prev := prev } :=
  Function.update_self ..

@[simp]
theorem setPrev_h_of_ne (s : Lloh α) (prev : Option ℕ) (h : i ≠ id) :
    (s.setPrev id prev).h i = s.h i := Function.update_of_ne h ..

@[simp]
theorem setNext_h_self (s : Lloh α) (id : ℕ) (next : Option ℕ) :
    (s.setNext id next).h id = (s.h id).map fun n => { n with next := next } :=
  Function.update_self ..

@[simp]
theorem setNext_h_of_ne (s : Lloh α) (next : Option ℕ) (h : i ≠ id) :
    (s.setNext id next).h i = s.h i := Function.update_of_ne h ..

@[simp]
theorem setObj_h_self (s : Lloh α) (id : ℕ) (obj : α) :
    (s.setObj id obj).h id = (s.h id).map fun n => { n with obj := obj } :=
  Function.update_self ..

@[simp]
theorem setObj_h_of_ne (s : Lloh α) (obj : α) (h : i ≠ id) : (s.setObj id obj).h i = s.h i :=
  Function.update_of_ne h ..

@[simp]
theorem insert_h_self (s : Lloh α) (n : ListNode α) : (s.insert n).h n.id = some n :=
  Function.update_self ..

@[simp]
theorem insert_h_of_ne (s : Lloh α) {n : ListNode α} (h : i ≠ n.id) : (s.insert n).h i = s.h i :=
  Function.update_of_ne h ..

@[simp]
theorem unsafeRemove_h_self (s : Lloh α) (id : ℕ) : (s.unsafeRemove id).h id = none :=
  Function.update_self ..

@[simp]
theorem unsafeRemove_h_of_ne (s : Lloh α) (h : i ≠ id) : (s.unsafeRemove id).h i = s.h i :=
  Function.update_of_ne h ..

/-- **A middle in the place of another**: what is around it has only to see the same ids. -/
theorem Represents.splice {m n : List (ℕ × α)} (hs : s.Represents (a ++ (m ++ b)))
    (hfirst : a = [] ∨ first (n ++ b) none = first (m ++ b) none)
    (hlast : b = [] ∨ last (last none a) n = last (last none a) m)
    (hsegment : Segment s'.Cell (last none a) n (first b none))
    (hsame : ∀ i, i ∉ m.map Prod.fst → i ∉ n.map Prod.fst → s'.h i = s.h i)
    (hgone : ∀ i ∈ m.map Prod.fst, i ∉ n.map Prod.fst → s'.h i = none)
    (hnodup : (n.map Prod.fst).Nodup)
    (hnew : ∀ i ∈ n.map Prod.fst, i ∈ m.map Prod.fst ∨ s.gensym ≤ i ∧ i < s'.gensym)
    (hgensym : s.gensym ≤ s'.gensym) (hhead : s'.head = first (a ++ (n ++ b)) none)
    (htail : s'.tail = last none (a ++ (n ++ b))) : s'.Represents (a ++ (n ++ b)) := by
  have hids : ∀ m : List (ℕ × α), (a ++ (m ++ b)).map Prod.fst =
      a.map Prod.fst ++ (m.map Prod.fst ++ b.map Prod.fst) := fun m => by
    rw [List.map_append, List.map_append]
  have hnodups := hs.nodup
  have hlt := hs.lt_gensym
  rw [hids, List.nodup_append, List.nodup_append] at hnodups
  rw [hids] at hlt
  obtain ⟨ha, ⟨hm, hb, hmb⟩, hamb⟩ := hnodups
  have hapart : ∀ i, i ∈ a.map Prod.fst ∨ i ∈ b.map Prod.fst →
      i ∉ m.map Prod.fst ∧ i ∉ n.map Prod.fst := by
    intro i hi
    have hold : i ∉ m.map Prod.fst := fun hmem => by
      rcases hi with hi | hi
      · exact hamb i hi i (List.mem_append_left _ hmem) rfl
      · exact hmb i hmem i hi rfl
    refine ⟨hold, fun hmem => ?_⟩
    rcases hnew i hmem with h | ⟨hge, -⟩
    · exact hold h
    · have : i < s.gensym := hlt i (by rcases hi with hi | hi <;> simp only [List.mem_append, hi,
        true_or, or_true])
      omega
  have hframe : ∀ i, i ∈ a.map Prod.fst ∨ i ∈ b.map Prod.fst → s'.h i = s.h i := fun i hi =>
    hsame i (hapart i hi).1 (hapart i hi).2
  obtain ⟨hsa, hrest⟩ := segment_append.mp hs.segment
  obtain ⟨-, hsb⟩ := segment_append.mp hrest
  refine ⟨?_, fun i hi => ?_, segment_append.mpr ⟨?_, segment_append.mpr ⟨hsegment, ?_⟩⟩, hhead,
    htail, fun i hi => ?_⟩
  · rw [hids, List.nodup_append, List.nodup_append]
    refine ⟨ha, ⟨hnodup, hb, fun i hi k hk => ?_⟩, fun i hi k hk => ?_⟩
    · rintro rfl
      exact (hapart i (Or.inr hk)).2 hi
    · rintro rfl
      rcases List.mem_append.mp hk with hk | hk
      · exact (hapart i (Or.inl hi)).2 hk
      · exact hamb i hi i (List.mem_append_right _ hk) rfl
  · rw [hids] at hi
    rcases List.mem_append.mp hi with hi | hi
    · exact (hlt i (List.mem_append_left _ hi)).trans_le hgensym
    rcases List.mem_append.mp hi with hi | hi
    · rcases hnew i hi with h | h
      · exact (hlt i (List.mem_append_right _ (List.mem_append_left _ h))).trans_le hgensym
      · exact h.2
    · exact (hlt i (List.mem_append_right _ (List.mem_append_right _ hi))).trans_le hgensym
  · rcases hfirst with rfl | hfirst
    · trivial
    · rw [hfirst]
      exact hsa.congr fun i hi _ _ _ hc => (hframe i (Or.inl hi)).trans hc
  · rcases hlast with rfl | hlast
    · trivial
    · rw [hlast]
      exact hsb.congr fun i hi _ _ _ hc => (hframe i (Or.inr hi)).trans hc
  · rw [hids, List.mem_append, List.mem_append, not_or, not_or] at hi
    by_cases hmem : i ∈ m.map Prod.fst
    · exact hgone i hmem hi.2.1
    · rw [hsame i hmem hi.2.1]
      refine hs.none_of_not_mem i ?_
      rw [hids, List.mem_append, List.mem_append, not_or, not_or]
      exact ⟨hi.1, hmem, hi.2.2⟩

/-- A middle that begins and ends with the same ids, in an object with the same ends. -/
theorem Represents.splice_inside {m n : List (ℕ × α)} (hs : s.Represents (a ++ (m ++ b)))
    (hfirst : first (n ++ b) none = first (m ++ b) none)
    (hlast : last (last none a) n = last (last none a) m)
    (hsegment : Segment s'.Cell (last none a) n (first b none))
    (hsame : ∀ i, i ∉ m.map Prod.fst → i ∉ n.map Prod.fst → s'.h i = s.h i)
    (hgone : ∀ i ∈ m.map Prod.fst, i ∉ n.map Prod.fst → s'.h i = none)
    (hnodup : (n.map Prod.fst).Nodup)
    (hnew : ∀ i ∈ n.map Prod.fst, i ∈ m.map Prod.fst ∨ s.gensym ≤ i ∧ i < s'.gensym)
    (hgensym : s.gensym ≤ s'.gensym) (hhead : s'.head = s.head) (htail : s'.tail = s.tail) :
    s'.Represents (a ++ (n ++ b)) := by
  refine hs.splice (Or.inr hfirst) (Or.inr hlast) hsegment hsame hgone hnodup hnew hgensym ?_ ?_
  · rw [hhead, hs.head, first_append a, first_append a, hfirst]
  · rw [htail, hs.tail, last_append, last_append, last_append, last_append, hlast]

/-! ## The operations -/

/-- The first element of an empty list: its id is not returned. -/
theorem cons_nil (hs : s.Represents []) (obj : α) :
    ∃ s', s.cons obj = some (none, s') ∧ s'.Represents [(s.gensym, obj)] := by
  have hnode : s.getNode s.head = none := by rw [hs.head]; rfl
  refine ⟨_, by rw [cons, hnode], ?_⟩
  refine hs.splice (a := []) (m := []) (n := [(s.gensym, obj)]) (b := []) (Or.inl rfl) (Or.inl rfl)
    ⟨insert_h_self _ _, trivial⟩ (fun i _ hi => ?_) (fun i hi => by cases hi)
    (List.nodup_singleton _) (fun i hi => Or.inr ?_) (Nat.le_succ _) rfl rfl
  · exact insert_h_of_ne _ fun h => hi (List.mem_singleton.mpr h)
  · rw [List.mem_singleton.mp hi]
    exact ⟨le_rfl, Nat.lt_succ_self _⟩

/-- **`cons` in front of an element.** -/
theorem cons_cons (hs : s.Represents (y :: l)) (obj : α) : ∃ s',
    s.cons obj = some (some s.gensym, s') ∧ s'.Represents ((s.gensym, obj) :: y :: l) := by
  have hy : s.h y.1 = some ⟨none, first l none, y.1, y.2⟩ := hs.node (a := [])
  have hnode : s.getNode s.head = some ⟨none, first l none, y.1, y.2⟩ := by
    rw [hs.head]
    exact hy
  have hne : y.1 ≠ s.gensym := fun h => hs.gensym_not_mem (h ▸ List.mem_cons_self)
  refine ⟨_, by rw [cons, hnode], ?_⟩
  refine hs.splice (a := []) (m := [y]) (n := [(s.gensym, obj), y]) (Or.inl rfl) (Or.inr rfl)
    ⟨?_, ?_, trivial⟩ (fun i _ hi => ?_) (fun i hi h => ?_) ?_ (fun i hi => ?_) (Nat.le_succ _) rfl
      ?_
  · exact (insert_h_self _ _).trans
      (congrArg (fun q => some (ListNode.mk none q s.gensym obj)) hs.head)
  · refine (insert_h_of_ne _ hne).trans ?_
    rw [setPrev_h_self]
    exact congrArg _ hy
  · simp only [List.map_cons, List.map_nil, List.mem_cons, List.not_mem_nil, or_false, not_or] at hi
    exact (insert_h_of_ne _ hi.1).trans (setPrev_h_of_ne _ _ hi.2)
  · exact absurd (List.mem_cons_of_mem _ hi) h
  · simpa using hne.symm
  · rcases List.mem_cons.mp hi with rfl | hi
    · exact Or.inr ⟨le_rfl, Nat.lt_succ_self _⟩
    · exact Or.inl hi
  · exact hs.tail

/-- **`snoc` behind an element.** -/
theorem snoc_concat (hs : s.Represents (l ++ [y])) (obj : α) : ∃ s',
    s.snoc obj = some (some s.gensym, s') ∧ s'.Represents (l ++ [y, (s.gensym, obj)]) := by
  have hy : s.h y.1 = some ⟨last none l, none, y.1, y.2⟩ := hs.node
  have htail : s.tail = some y.1 := by
    rw [hs.tail, last_append]
    rfl
  have hnode : s.getNode s.tail = some ⟨last none l, none, y.1, y.2⟩ := by
    rw [htail]
    exact hy
  have hne : y.1 ≠ s.gensym := fun h => hs.gensym_not_mem (h ▸ by simp)
  refine ⟨_, by rw [snoc, hnode], ?_⟩
  refine hs.splice (m := [y]) (n := [y, (s.gensym, obj)]) (b := []) (Or.inr rfl) (Or.inl rfl)
    ⟨?_, ?_, trivial⟩ (fun i _ hi => ?_) (fun i hi h => ?_) ?_ (fun i hi => ?_) (Nat.le_succ _) ?_
      ?_
  · refine (insert_h_of_ne _ hne).trans ?_
    rw [setNext_h_self]
    exact congrArg _ hy
  · exact (insert_h_self _ _).trans
      (congrArg (fun q => some (ListNode.mk q none s.gensym obj)) htail)
  · simp only [List.map_cons, List.map_nil, List.mem_cons, List.not_mem_nil, or_false, not_or] at hi
    exact (insert_h_of_ne _ hi.2).trans (setNext_h_of_ne _ _ hi.1)
  · exact absurd (List.mem_append_left [s.gensym] hi) h
  · simpa using hne
  · rcases List.mem_cons.mp hi with rfl | hi
    · exact Or.inl List.mem_cons_self
    · rw [List.mem_singleton.mp hi]
      exact Or.inr ⟨le_rfl, Nat.lt_succ_self _⟩
  · refine hs.head.trans ?_
    rw [first_append, first_append]
    rfl
  · simp

/-- `snoc` on an empty list has taken an id when it calls `cons`. -/
theorem snoc_nil (hs : s.Represents []) (obj : α) :
    ∃ s', s.snoc obj = some (none, s') ∧ s'.Represents [(s.gensym + 1, obj)] := by
  have hnode : s.getNode s.tail = none := by rw [hs.tail]; rfl
  have hnext : ({ s with gensym := s.gensym + 1 } : Lloh α).Represents [] :=
    ⟨hs.nodup, fun i hi => (by cases hi), hs.segment, hs.head, hs.tail, hs.none_of_not_mem⟩
  obtain ⟨s', hcons, hs'⟩ := cons_nil hnext obj
  exact ⟨s', by rw [snoc, hnode]; exact hcons, hs'⟩

/-- **`insert/after` before another element.** -/
theorem insertAfter_cons (hs : s.Represents (a ++ x :: y :: b)) (obj : α) : ∃ s',
    s.insertAfter x.1 obj = some (some s.gensym, s') ∧
      s'.Represents (a ++ x :: (s.gensym, obj) :: y :: b) := by
  have hx : s.h x.1 = some ⟨last none a, some y.1, x.1, x.2⟩ := hs.node
  have hy := hs.node_second
  have hnext : s.getNode (some y.1) = some ⟨some x.1, first b none, y.1, y.2⟩ := hy
  obtain ⟨⟨hgx, hgy⟩, hxy⟩ : (s.gensym ≠ x.1 ∧ s.gensym ≠ y.1) ∧ x.1 ≠ y.1 := by
    simpa using hs.nodup_middle (m := [x, y])
  refine ⟨_, by rw [insertAfter, hx]; dsimp only; rw [hnext], ?_⟩
  refine hs.splice_inside (m := [x, y]) (n := [x, (s.gensym, obj), y]) rfl rfl
    ⟨?_, ?_, ?_, trivial⟩ (fun i _ hi => ?_) (fun i hi h => ?_) ?_ (fun i hi => ?_) (Nat.le_succ _)
    rfl rfl
  · refine (insert_h_of_ne _ hgx.symm).trans ?_
    rw [setNext_h_self, setPrev_h_of_ne _ _ hxy]
    exact congrArg _ hx
  · exact insert_h_self _ _
  · refine (insert_h_of_ne _ hgy.symm).trans ?_
    rw [setNext_h_of_ne _ _ hxy.symm, setPrev_h_self]
    exact congrArg _ hy
  · simp only [List.map_cons, List.map_nil, List.mem_cons, List.not_mem_nil, or_false, not_or] at hi
    refine (insert_h_of_ne _ hi.2.1).trans ?_
    rw [setNext_h_of_ne _ _ hi.1, setPrev_h_of_ne _ _ hi.2.2]
  · simp only [List.map_cons, List.map_nil, List.mem_cons, List.not_mem_nil, or_false] at hi h
    exact absurd (hi.imp_right Or.inr) h
  · simpa using ⟨⟨hgx.symm, hxy⟩, hgy⟩
  · simp only [List.map_cons, List.map_nil, List.mem_cons, List.not_mem_nil, or_false] at hi ⊢
    rcases hi with rfl | rfl | rfl
    · exact Or.inl (Or.inl rfl)
    · exact Or.inr ⟨le_rfl, Nat.lt_succ_self _⟩
    · exact Or.inl (Or.inr rfl)

/-- Nothing is behind the last element. -/
theorem insertAfter_last (hs : s.Represents (a ++ [x])) (obj : α) :
    s.insertAfter x.1 obj = none := by
  rw [insertAfter, hs.node]
  rfl

/-- **`insert/at` between two elements.** -/
theorem insertAt_between (hs : s.Represents (a ++ y :: x :: z :: b)) (obj : α) : ∃ s',
    s.insertAt x.1 obj = some (some s.gensym, s') ∧
      s'.Represents (a ++ y :: (s.gensym, obj) :: z :: b) := by
  have hx : s.h x.1 = some ⟨some y.1, some z.1, x.1, x.2⟩ := hs.node_second
  have hy : s.h y.1 = some ⟨last none a, some x.1, y.1, y.2⟩ := hs.node
  have hz := hs.node_third
  have hnext : s.getNode (some z.1) = some ⟨some x.1, first b none, z.1, z.2⟩ := hz
  have hprev : s.getNode (some y.1) = some ⟨last none a, some x.1, y.1, y.2⟩ := hy
  obtain ⟨⟨hgy, hgx, hgz⟩, ⟨hyx, hyz⟩, hxz⟩ : (s.gensym ≠ y.1 ∧ s.gensym ≠ x.1 ∧ s.gensym ≠ z.1) ∧
      (y.1 ≠ x.1 ∧ y.1 ≠ z.1) ∧ x.1 ≠ z.1 := by
    simpa using hs.nodup_middle (m := [y, x, z])
  refine ⟨_, by rw [insertAt, hx]; dsimp only; rw [hnext, hprev], ?_⟩
  refine hs.splice_inside (m := [y, x, z]) (n := [y, (s.gensym, obj), z]) rfl rfl
    ⟨?_, ?_, ?_, trivial⟩ (fun i hi hi' => ?_) (fun i hi h => ?_) ?_ (fun i hi => ?_)
      (Nat.le_succ _)
    rfl rfl
  · refine (insert_h_of_ne _ hgy.symm).trans ?_
    rw [unsafeRemove_h_of_ne _ hyx, setNext_h_self, setPrev_h_of_ne _ _ hyz]
    exact congrArg _ hy
  · exact insert_h_self _ _
  · refine (insert_h_of_ne _ hgz.symm).trans ?_
    rw [unsafeRemove_h_of_ne _ hxz.symm, setNext_h_of_ne _ _ hyz.symm, setPrev_h_self]
    exact congrArg _ hz
  · simp only [List.map_cons, List.map_nil, List.mem_cons, List.not_mem_nil, or_false,
      not_or] at hi hi'
    refine (insert_h_of_ne _ hi'.2.1).trans ?_
    rw [unsafeRemove_h_of_ne _ hi.2.1, setNext_h_of_ne _ _ hi.1, setPrev_h_of_ne _ _ hi.2.2]
  · simp only [List.map_cons, List.map_nil, List.mem_cons, List.not_mem_nil, or_false,
      not_or] at hi h
    obtain rfl : i = x.1 := by
      rcases hi with hi | hi | hi
      · exact absurd hi h.1
      · exact hi
      · exact absurd hi h.2.2
    exact (insert_h_of_ne _ hgx.symm).trans (unsafeRemove_h_self _ _)
  · simpa using ⟨⟨hgy.symm, hyz⟩, hgz⟩
  · simp only [List.map_cons, List.map_nil, List.mem_cons, List.not_mem_nil, or_false] at hi ⊢
    rcases hi with rfl | rfl | rfl
    · exact Or.inl (Or.inl rfl)
    · exact Or.inr ⟨le_rfl, Nat.lt_succ_self _⟩
    · exact Or.inl (Or.inr (Or.inr rfl))

/-- **`remove` between two elements.** -/
theorem remove_between (hs : s.Represents (a ++ y :: x :: z :: b)) : ∃ s',
    s.remove x.1 = some (none, s') ∧ s'.Represents (a ++ y :: z :: b) := by
  have hx : s.h x.1 = some ⟨some y.1, some z.1, x.1, x.2⟩ := hs.node_second
  have hy : s.h y.1 = some ⟨last none a, some x.1, y.1, y.2⟩ := hs.node
  have hz := hs.node_third
  have hnext : s.getNode (some z.1) = some ⟨some x.1, first b none, z.1, z.2⟩ := hz
  have hprev : s.getNode (some y.1) = some ⟨last none a, some x.1, y.1, y.2⟩ := hy
  obtain ⟨-, ⟨hyx, hyz⟩, hxz⟩ : (s.gensym ≠ y.1 ∧ s.gensym ≠ x.1 ∧ s.gensym ≠ z.1) ∧
      (y.1 ≠ x.1 ∧ y.1 ≠ z.1) ∧ x.1 ≠ z.1 := by
    simpa using hs.nodup_middle (m := [y, x, z])
  refine ⟨_, by rw [remove, hx]; dsimp only; rw [hnext, hprev], ?_⟩
  refine hs.splice_inside (m := [y, x, z]) (n := [y, z]) rfl rfl ⟨?_, ?_, trivial⟩
    (fun i hi hi' => ?_) (fun i hi h => ?_) ?_ (fun i hi => ?_) le_rfl rfl rfl
  · refine (unsafeRemove_h_of_ne _ hyx).trans ?_
    rw [setNext_h_self, setPrev_h_of_ne _ _ hyz]
    exact congrArg _ hy
  · refine (unsafeRemove_h_of_ne _ hxz.symm).trans ?_
    rw [setNext_h_of_ne _ _ hyz.symm, setPrev_h_self]
    exact congrArg _ hz
  · simp only [List.map_cons, List.map_nil, List.mem_cons, List.not_mem_nil, or_false,
      not_or] at hi hi'
    rw [unsafeRemove_h_of_ne _ hi.2.1, setNext_h_of_ne _ _ hi.1, setPrev_h_of_ne _ _ hi.2.2]
  · simp only [List.map_cons, List.map_nil, List.mem_cons, List.not_mem_nil, or_false,
      not_or] at hi h
    obtain rfl : i = x.1 := by
      rcases hi with hi | hi | hi
      · exact absurd hi h.1
      · exact hi
      · exact absurd hi h.2
    exact unsafeRemove_h_self _ _
  · simpa using hyz
  · simp only [List.map_cons, List.map_nil, List.mem_cons, List.not_mem_nil, or_false] at hi ⊢
    exact Or.inl (hi.imp_right Or.inr)

/-- Nothing is before the first element, -/
theorem insertAt_first (hs : s.Represents (x :: b)) (obj : α) : s.insertAt x.1 obj = none := by
  rw [insertAt, hs.node (a := [])]
  dsimp only
  cases s.getNode (first b none) <;> rfl

/-- or behind the last one. -/
theorem insertAt_last (hs : s.Represents (a ++ [x])) (obj : α) : s.insertAt x.1 obj = none := by
  rw [insertAt, hs.node]
  rfl

theorem remove_first (hs : s.Represents (x :: b)) : s.remove x.1 = none := by
  rw [remove, hs.node (a := [])]
  dsimp only
  cases s.getNode (first b none) <;> rfl

theorem remove_last (hs : s.Represents (a ++ [x])) : s.remove x.1 = none := by
  rw [remove, hs.node]
  rfl

/-- **`replace` anywhere.** -/
theorem replace_at (hs : s.Represents (a ++ x :: b)) (obj : α) : ∃ s',
    s.replace x.1 obj = some (none, s') ∧ s'.Represents (a ++ (x.1, obj) :: b) := by
  refine ⟨_, by rw [replace, hs.node], ?_⟩
  refine hs.splice_inside (m := [x]) (n := [(x.1, obj)]) rfl rfl ⟨?_, trivial⟩
    (fun i hi _ => ?_) (fun i hi h => absurd hi h) (List.nodup_singleton _) (fun i hi => Or.inl hi)
    le_rfl rfl rfl
  · refine (setObj_h_self _ _ _).trans ?_
    rw [hs.node]
    rfl
  · exact setObj_h_of_ne _ _ fun h => hi (List.mem_singleton.mpr h)

/-! ## What is seen of the list -/

/-- **What the object shows of a sequence**: both traversals, `->list` and the objects under the
ids. -/
structure Shows (s : Lloh α) (l : List (ℕ × α)) : Prop where
  nodup : (l.map Prod.fst).Nodup
  forward : Returns s.forward l
  backward : Returns s.backward l.reverse
  toList : Returns s.toList (l.map Prod.snd)
  get : ∀ i c, s.get i = some c ↔ (i, c) ∈ l

theorem foldl_cons_snd (l : List (ℕ × α)) (acc : List α) :
    l.foldl (fun ls x => x.2 :: ls) acc = (l.map Prod.snd).reverse ++ acc := by
  induction l generalizing acc with
  | nil => rfl
  | cons x l ih =>
    rw [List.foldl_cons, ih, List.map_cons, List.reverse_cons, List.append_assoc]
    rfl

namespace Represents

theorem forward (hs : s.Represents l) : Returns s.forward l := by
  refine ⟨l.length, fun fuel hfuel => ?_⟩
  rw [Lloh.forward, hs.head]
  refine hs.segment.walk_next (fun i p q c hc => ?_) hfuel
  rw [read, hc]
  rfl

theorem backward (hs : s.Represents l) : Returns s.backward l.reverse := by
  refine ⟨l.length, fun fuel hfuel => ?_⟩
  rw [Lloh.backward, hs.tail]
  refine hs.segment.walk_prev (fun i p q c hc => ?_) hfuel
  rw [read, hc]
  rfl

/-- **What represents a sequence shows it.** -/
theorem shows (hs : s.Represents l) : s.Shows l := by
  refine ⟨hs.nodup, hs.forward, hs.backward, ?_, fun i c => ?_⟩
  · have := hs.backward.map fun visited => visited.foldl (fun ls (x : ℕ × α) => x.2 :: ls) []
    rw [foldl_cons_snd, List.map_reverse, List.reverse_reverse, List.append_nil] at this
    exact this
  · constructor
    · intro h
      obtain ⟨n, hn, rfl⟩ := Option.map_eq_some_iff.mp h
      obtain ⟨x, hx, rfl⟩ := List.mem_map.mp (hs.mem_iff.mpr ⟨n, hn⟩)
      obtain ⟨p, q, hnode⟩ := hs.exists_node hx
      rw [hn] at hnode
      cases hnode
      exact hx
    · intro h
      obtain ⟨p, q, hnode⟩ := hs.exists_node h
      rw [get, hnode]
      rfl

end Represents

theorem Shows.unique (h : s.Shows a) (h' : s.Shows b) : a = b := h.forward.eq h'.forward

/-! ## Searching -/

variable {eh : α → Bool}

/-- The last match is what a search is left with. -/
theorem setLoc_eq (eh : α → Bool) (l : List (ℕ × α)) :
    setLoc eh l = (l.reverse.find? fun x => eh x.2).map Prod.fst := by
  induction l using List.reverseRecOn with
  | nil => rfl
  | append_singleton l x ih =>
    rw [setLoc, List.foldl_append, ← setLoc, ih, List.foldl_cons, List.foldl_nil,
      List.reverse_append, List.reverse_singleton, List.singleton_append, List.find?_cons]
    cases eh x.2 with
    | true => rfl
    | false => rfl

/-- **The first match is the last one** only where there are not two. -/
theorem find?_reverse_eq_iff (hnodup : (l.map Prod.fst).Nodup) :
    (l.reverse.find? fun x => eh x.2).map Prod.fst = (l.find? fun x => eh x.2).map Prod.fst ↔
      l.countP (fun x => eh x.2) ≤ 1 := by
  induction l with
  | nil => simp
  | cons x l ih =>
    obtain ⟨hx, hnodup⟩ := List.nodup_cons.mp hnodup
    rw [List.reverse_cons, List.find?_append, List.find?_cons, List.countP_cons]
    cases hmatch : eh x.2 with
    | false => simpa [hmatch] using ih hnodup
    | true =>
      rw [if_pos rfl]
      cases hfind : l.reverse.find? fun x => eh x.2 with
      | none =>
        have hzero : l.countP (fun x => eh x.2) = 0 := by
          rw [List.countP_eq_zero]
          intro y hy
          exact List.find?_eq_none.mp hfind y (List.mem_reverse.mpr hy)
        exact iff_of_true (by simp [hmatch]) (by omega)
      | some y =>
        have hy : y ∈ l := List.mem_reverse.mp (List.mem_of_find?_eq_some hfind)
        have hpos : 0 < l.countP (fun x => eh x.2) :=
          List.countP_pos_iff.mpr ⟨y, hy, List.find?_some (p := fun x : ℕ × α => eh x.2) hfind⟩
        refine iff_of_false (fun h => hx ?_) (by omega)
        have hids : y.1 = x.1 := by simpa [hmatch] using h
        rw [← hids]
        exact List.mem_map_of_mem hy

/-- **`find/first`** is right where nothing more matches. -/
theorem findFirst_iff (hs : s.Represents l) :
    Returns (s.findFirst eh) ((l.find? fun x => eh x.2).map Prod.fst) ↔
      l.countP (fun x => eh x.2) ≤ 1 := by
  have hreturns := hs.forward.map (setLoc eh)
  rw [setLoc_eq] at hreturns
  rw [← find?_reverse_eq_iff hs.nodup]
  exact ⟨fun h => hreturns.eq h, fun h => h ▸ hreturns⟩

/-- **So is `find/last`.** -/
theorem findLast_iff (hs : s.Represents l) :
    Returns (s.findLast eh) ((l.reverse.find? fun x => eh x.2).map Prod.fst) ↔
      l.countP (fun x => eh x.2) ≤ 1 := by
  have hreturns := hs.backward.map (setLoc eh)
  rw [setLoc_eq, List.reverse_reverse] at hreturns
  rw [← find?_reverse_eq_iff hs.nodup]
  exact ⟨fun h => (hreturns.eq h).symm, fun h => h ▸ hreturns⟩

/-! ## Contracts -/

end Lloh

/-- The operations that change a list. -/
inductive LlohOp (α : Type*)
  | cons (obj : α)
  | snoc (obj : α)
  | insertAfter (id : ℕ) (obj : α)
  | insertAt (id : ℕ) (obj : α)
  | remove (id : ℕ)
  | replace (id : ℕ) (obj : α)

namespace Lloh

variable {α : Type*} {s s' : Lloh α} {l l' : List (ℕ × α)} {op : LlohOp α}

def perform (s : Lloh α) : LlohOp α → Result α
  | .cons obj => s.cons obj
  | .snoc obj => s.snoc obj
  | .insertAfter id obj => s.insertAfter id obj
  | .insertAt id obj => s.insertAt id obj
  | .remove id => s.remove id
  | .replace id obj => s.replace id obj

/-- The id that an operation is given denotes an element. -/
def Current (l : List (ℕ × α)) : LlohOp α → Prop
  | .cons _ | .snoc _ => True
  | .insertAfter id _ | .insertAt id _ | .remove id | .replace id _ => id ∈ l.map Prod.fst

/-- What an operation makes of a sequence; `new` is the id of an object that it inserts. -/
def Updates (new : ℕ) (l : List (ℕ × α)) : LlohOp α → List (ℕ × α) → Prop
  | .cons obj, l' => l' = (new, obj) :: l
  | .snoc obj, l' => l' = l ++ [(new, obj)]
  | .insertAfter id obj, l' =>
    ∃ a c b, l = a ++ (id, c) :: b ∧ l' = a ++ (id, c) :: (new, obj) :: b
  | .insertAt id obj, l' => ∃ a c b, l = a ++ (id, c) :: b ∧ l' = a ++ (new, obj) :: b
  | .remove id, l' => ∃ a c b, l = a ++ (id, c) :: b ∧ l' = a ++ b
  | .replace id obj, l' => ∃ a c b, l = a ++ (id, c) :: b ∧ l' = a ++ (id, obj) :: b

/-- The operations that return an id. -/
def Inserts : LlohOp α → Prop
  | .cons _ | .snoc _ | .insertAfter _ _ | .insertAt _ _ => True
  | .remove _ | .replace _ _ => False

/-- **An operation updates the sequence**: it succeeds, and the object shows the result. -/
def Succeeds (s : Lloh α) (l : List (ℕ × α)) (op : LlohOp α) : Prop :=
  ∃ value s' new l', s.perform op = some (value, s') ∧ new ∉ l.map Prod.fst ∧
    Updates new l op l' ∧ s'.Shows l'

/-- **An operation keeps its contract**: it returns the id of what it inserts besides. -/
def Keeps (s : Lloh α) (l : List (ℕ × α)) (op : LlohOp α) : Prop :=
  ∃ value s' new l', s.perform op = some (value, s') ∧ new ∉ l.map Prod.fst ∧
    Updates new l op l' ∧ s'.Shows l' ∧ (Inserts op → value = some new)

/-- The place of an operation has the elements around it that its code asks for. -/
def Inside (l : List (ℕ × α)) : LlohOp α → Prop
  | .cons _ | .snoc _ | .replace _ _ => True
  | .insertAfter id _ => last none l ≠ some id
  | .insertAt id _ | .remove id => first l none ≠ some id ∧ last none l ≠ some id

/-- There is an element already when one is put at an end. -/
def NotFirst (l : List (ℕ × α)) : LlohOp α → Prop
  | .cons _ | .snoc _ => l ≠ []
  | .insertAfter _ _ | .insertAt _ _ | .remove _ | .replace _ _ => True

/-- An element that an id denotes. -/
theorem exists_split {id : ℕ} (h : id ∈ l.map Prod.fst) : ∃ a c b, l = a ++ (id, c) :: b := by
  obtain ⟨x, hx, rfl⟩ := List.mem_map.mp h
  obtain ⟨a, b, rfl⟩ := List.append_of_mem hx
  exact ⟨a, x.2, b, rfl⟩

/-- An element that is neither the first nor the last has neighbours. -/
theorem exists_between {id : ℕ} (h : id ∈ l.map Prod.fst) (hfirst : first l none ≠ some id)
    (hlast : last none l ≠ some id) : ∃ a y c z b, l = a ++ y :: (id, c) :: z :: b := by
  obtain ⟨a, c, b, rfl⟩ := exists_split h
  rcases List.eq_nil_or_concat a with rfl | ⟨a, y, rfl⟩
  · exact absurd rfl hfirst
  · cases b with
    | nil =>
      rw [last_append] at hlast
      exact absurd rfl hlast
    | cons z b => exact ⟨a, y, c, z, b, by simp⟩

/-- **Inside, every operation succeeds.** -/
theorem perform_inside (hs : s.Represents l) (hc : Current l op) (h : Inside l op) :
    ∃ value s' new l', s.perform op = some (value, s') ∧ new ∉ l.map Prod.fst ∧
      Updates new l op l' ∧ s'.Represents l' ∧
      (Inserts op → value = if l = [] then none else some new) := by
  have hgensym := hs.gensym_not_mem
  cases op with
  | cons obj =>
    cases l with
    | nil =>
      obtain ⟨s', hcons, hs'⟩ := cons_nil hs obj
      exact ⟨_, s', s.gensym, _, hcons, hgensym, rfl, hs', fun _ => rfl⟩
    | cons y l =>
      obtain ⟨s', hcons, hs'⟩ := cons_cons hs obj
      exact ⟨_, s', s.gensym, _, hcons, hgensym, rfl, hs', fun _ => rfl⟩
  | snoc obj =>
    rcases List.eq_nil_or_concat l with rfl | ⟨l, y, rfl⟩
    · obtain ⟨s', hsnoc, hs'⟩ := snoc_nil hs obj
      exact ⟨_, s', s.gensym + 1, _, hsnoc, by simp, rfl, hs', fun _ => rfl⟩
    · rw [List.concat_eq_append] at hs hgensym ⊢
      obtain ⟨s', hsnoc, hs'⟩ := snoc_concat hs obj
      refine ⟨_, s', s.gensym, _, hsnoc, hgensym, ?_, hs', fun _ => ?_⟩
      · exact (List.append_assoc l [y] [(s.gensym, obj)]).symm
      · rw [if_neg (List.append_ne_nil_of_right_ne_nil _ (List.cons_ne_nil _ _))]
  | insertAfter id obj =>
    obtain ⟨a, c, b, rfl⟩ := exists_split hc
    cases b with
    | nil =>
      refine absurd ?_ h
      rw [last_append]
      rfl
    | cons y b =>
      obtain ⟨s', hinsert, hs'⟩ := insertAfter_cons hs obj
      refine ⟨_, s', s.gensym, _, hinsert, hgensym, ⟨a, c, y :: b, rfl, rfl⟩, hs', fun _ => ?_⟩
      rw [if_neg (List.append_ne_nil_of_right_ne_nil _ (List.cons_ne_nil _ _))]
  | insertAt id obj =>
    obtain ⟨a, y, c, z, b, rfl⟩ := exists_between hc h.1 h.2
    obtain ⟨s', hinsert, hs'⟩ := insertAt_between hs obj
    refine ⟨_, s', s.gensym, _, hinsert, hgensym, ⟨a ++ [y], c, z :: b, ?_, ?_⟩, hs', fun _ => ?_⟩
    · rw [List.append_assoc, List.singleton_append]
    · rw [List.append_assoc, List.singleton_append]
    · rw [if_neg (List.append_ne_nil_of_right_ne_nil _ (List.cons_ne_nil _ _))]
  | remove id =>
    obtain ⟨a, y, c, z, b, rfl⟩ := exists_between hc h.1 h.2
    obtain ⟨s', hremove, hs'⟩ := remove_between hs
    refine ⟨_, s', s.gensym, _, hremove, hgensym, ⟨a ++ [y], c, z :: b, ?_, ?_⟩, hs',
      fun hi => hi.elim⟩
    · rw [List.append_assoc, List.singleton_append]
    · rw [List.append_assoc, List.singleton_append]
  | replace id obj =>
    obtain ⟨a, c, b, rfl⟩ := exists_split hc
    obtain ⟨s', hreplace, hs'⟩ := replace_at hs obj
    exact ⟨_, s', s.gensym, _, hreplace, hgensym, ⟨a, c, b, rfl, rfl⟩, hs', fun hi => hi.elim⟩

/-- **At the ends, three of them fail.** -/
theorem perform_outside (hs : s.Represents l) (h : ¬ Inside l op) : s.perform op = none := by
  have hends : ∀ {id : ℕ}, ¬ (first l none ≠ some id ∧ last none l ≠ some id) →
      (∃ c b, l = (id, c) :: b) ∨ ∃ a c, l = a ++ [(id, c)] := by
    intro id h
    rw [not_and_or, not_not, not_not] at h
    refine h.imp (fun h => ?_) exists_last
    cases l with
    | nil => cases h
    | cons x b =>
      cases h
      exact ⟨x.2, b, rfl⟩
  cases op with
  | cons obj | snoc obj | replace id obj => exact absurd trivial h
  | insertAfter id obj =>
    obtain ⟨a, c, rfl⟩ := exists_last (not_not.mp h)
    exact insertAfter_last hs obj
  | insertAt id obj =>
    obtain ⟨c, b, rfl⟩ | ⟨a, c, rfl⟩ := hends h
    · exact insertAt_first hs obj
    · exact insertAt_last hs obj
  | remove id =>
    obtain ⟨c, b, rfl⟩ | ⟨a, c, rfl⟩ := hends h
    · exact remove_first hs
    · exact remove_last hs

theorem succeeds_iff (hs : s.Represents l) (hc : Current l op) :
    Succeeds s l op ↔ Inside l op := by
  constructor
  · rintro ⟨value, s', new, l', hperform, -⟩
    by_contra h
    rw [perform_outside hs h] at hperform
    cases hperform
  · intro h
    obtain ⟨value, s', new, l', hperform, hnew, hupdates, hs', -⟩ := perform_inside hs hc h
    exact ⟨value, s', new, l', hperform, hnew, hupdates, hs'.shows⟩

/-- **The contracts are kept** inside a list that is not empty. -/
theorem keeps_iff (hs : s.Represents l) (hc : Current l op) :
    Keeps s l op ↔ Inside l op ∧ NotFirst l op := by
  have hnil : ¬ NotFirst l op ↔ l = [] ∧ Inserts op ∧ Inside l op := by
    cases op with
    | cons obj | snoc obj => simp [NotFirst, Inserts, Inside]
    | insertAfter id obj | insertAt id obj =>
      refine iff_of_false (fun h => h trivial) fun h => ?_
      rw [h.1] at hc
      cases hc
    | remove id | replace id obj => simp [NotFirst, Inserts]
  constructor
  · rintro ⟨value, s', new, l', hperform, hnew, hupdates, hshows, hvalue⟩
    have hinside : Inside l op :=
      (succeeds_iff hs hc).mp ⟨value, s', new, l', hperform, hnew, hupdates, hshows⟩
    refine ⟨hinside, by_contra fun hempty => ?_⟩
    obtain ⟨rfl, hinserts, -⟩ := hnil.mp hempty
    obtain ⟨value', s'', new', l'', hperform', -, -, -, hvalue'⟩ := perform_inside hs hc hinside
    rw [hperform'] at hperform
    cases hperform
    rw [hvalue' hinserts, if_pos rfl] at hvalue
    cases hvalue hinserts
  · rintro ⟨hinside, hempty⟩
    obtain ⟨value, s', new, l', hperform, hnew, hupdates, hs', hvalue⟩ :=
      perform_inside hs hc hinside
    refine ⟨value, s', new, l', hperform, hnew, hupdates, hs'.shows, fun hinserts => ?_⟩
    rw [hvalue hinserts, if_neg fun h => hnil.mpr ⟨h, hinserts, hinside⟩ hempty]

/-! ## Runs -/

/-- The object after an operation; an error ends the run. -/
def step (s : Lloh α) (op : LlohOp α) : Option (Lloh α) := (s.perform op).map Prod.snd

/-- The ids given denote elements of the sequence that the object shows. -/
def Asked (s : Lloh α) (op : LlohOp α) : Prop := ∃ l, s.Shows l ∧ Current l op

/-- **Every object that is reached is a sequence.** -/
theorem represents_of_reach {gensym : ℕ} (h : Transition.Reach step Asked (empty gensym) s) :
    ∃ l, s.Represents l := by
  refine h.invariant (I := fun s : Lloh α => ∃ l, s.Represents l) ⟨[], represents_empty gensym⟩ ?_
  rintro s s' op ⟨l, hs⟩ ⟨l', hshows, hc⟩ hstep
  obtain rfl := hshows.unique hs.shows
  obtain ⟨⟨value, s''⟩, hperform, rfl⟩ := Option.map_eq_some_iff.mp hstep
  have hinside : Inside l' op := by
    by_contra h
    rw [perform_outside hs h] at hperform
    cases hperform
  obtain ⟨value', s₁, new, l₁, hperform', -, -, hs₁, -⟩ := perform_inside hs hc hinside
  rw [hperform] at hperform'
  cases hperform'
  exact ⟨l₁, hs₁⟩

/-- **The list on a hash table**, after any operations: it shows a sequence, which an operation
updates unless it needs a neighbour that its place does not have; an id is returned unless it is
that of the first element of all; and a search is right unless several elements match. -/
theorem lloh_iff {gensym : ℕ} (h : Transition.Reach step Asked (empty gensym) s) :
    ∃ l, s.Shows l ∧
      (∀ op, Current l op →
        (Succeeds s l op ↔ Inside l op) ∧ (Keeps s l op ↔ Inside l op ∧ NotFirst l op)) ∧
      ∀ eh : α → Bool,
        (Returns (s.findFirst eh) ((l.find? fun x => eh x.2).map Prod.fst) ↔
          l.countP (fun x => eh x.2) ≤ 1) ∧
        (Returns (s.findLast eh) ((l.reverse.find? fun x => eh x.2).map Prod.fst) ↔
          l.countP (fun x => eh x.2) ≤ 1) := by
  obtain ⟨l, hs⟩ := represents_of_reach h
  exact ⟨l, hs.shows, fun op hc => ⟨succeeds_iff hs hc, keeps_iff hs hc⟩,
    fun eh => ⟨findFirst_iff hs, findLast_iff hs⟩⟩

/-- Three elements, of which the one between came last. -/
def three : Option (Lloh ℕ) :=
  ((step (empty 0) (.cons 7)).bind (step · (.snoc 9))).bind (step · (.insertAfter 0 8))

theorem lloh_iff_three : ∃ s : Lloh ℕ, three = some s ∧ s.Shows [(0, 7), (2, 8), (1, 9)] ∧
    Keeps s [(0, 7), (2, 8), (1, 9)] (.insertAfter 2 5) ∧
    Keeps s [(0, 7), (2, 8), (1, 9)] (.remove 2) ∧
    ¬ Succeeds s [(0, 7), (2, 8), (1, 9)] (.remove 1) ∧
    Returns (s.findFirst (· = 8)) (some 2) ∧ ¬ Returns (s.findFirst (7 < ·)) (some 2) := by
  have hcons : Asked (empty 0 : Lloh ℕ) (.cons 7) := ⟨[], (represents_empty 0).shows, trivial⟩
  have hone : Transition.Reach step Asked (empty 0 : Lloh ℕ) _ := .next .start hcons rfl
  obtain ⟨l₁, hl₁⟩ := represents_of_reach hone
  have hsnoc : Asked _ (.snoc 9) := ⟨l₁, hl₁.shows, trivial⟩
  have htwo := hone.next hsnoc rfl
  obtain ⟨l₂, hl₂⟩ := represents_of_reach htwo
  obtain rfl : l₂ = [(0, 7), (1, 9)] := hl₂.forward.eq ⟨2, fun fuel hfuel => by
    obtain ⟨n, rfl⟩ := Nat.exists_eq_add_of_le' hfuel
    cases n <;> rfl⟩
  have hinsert : Asked _ (.insertAfter 0 8) := ⟨_, hl₂.shows, List.mem_cons_self⟩
  obtain ⟨l, hshows, hop, hsearch⟩ := lloh_iff (htwo.next hinsert rfl)
  obtain rfl : l = [(0, 7), (2, 8), (1, 9)] := hshows.forward.eq ⟨3, fun fuel hfuel => by
    obtain ⟨n, rfl⟩ := Nat.exists_eq_add_of_le' hfuel
    cases n <;> rfl⟩
  refine ⟨_, rfl, hshows, (hop _ ?_).2.mpr ?_, (hop _ ?_).2.mpr ?_, (hop _ ?_).1.not.mpr ?_,
    (hsearch _).1.mpr (by decide), (hsearch _).1.not.mpr (by decide)⟩
  all_goals simp [Current, Inside, NotFirst, first, last]

/-- One object is put into an empty list: its id is not returned, and nothing can be inserted
behind it. -/
theorem cons_returns_void : ∃ s : Lloh ℕ, (empty 0).cons 7 = some (none, s) ∧ s.get 0 = some 7 ∧
    s.toList 1 = some [7] ∧ s.insertAfter 0 8 = none := ⟨_, rfl, rfl, rfl, rfl⟩

end Lloh

end Slinker

end Kroc
