/-
Doubly linked lists on a heap.

A node has an address, and points to the one in front of it and to the one behind it.
The functions follow these pointers as a C program does; a pointer to a node that is not
there, and a walk that does not end, have no result.  `Dll.Holds` says that the nodes are
exactly those of a list, linked to their neighbours both ways.

Three rules are what a program with such a list needs.  A search finds what a search of
the list finds (`Holds.find`), and a node that is added at the end (`Holds.pushBack`) or
taken out anywhere (`Holds.unlink`) is added to the list or taken out of it.
Every such list is well formed (`Holds.wf`).
-/
import Mathlib.Data.List.AList
import Mathlib.Tactic.Common

namespace Links

abbrev Loc := Nat

/-- A node, with what it holds and its two pointers. -/
structure Node (α : Type*) where
  val : α
  prev : Option Loc
  next : Option Loc

/-- The nodes that are allocated. -/
abbrev Heap (α : Type*) := AList fun _ : Loc => Node α

/-- A list: the nodes, and the pointer to the first one. -/
structure Dll (α : Type*) where
  heap : Heap α
  start : Option Loc

variable {α : Type*}

/-! ### Following pointers -/

/-- How many nodes there are. -/
def size (h : Heap α) : Nat := h.keys.length

/-- Writing to a node. -/
def write (h : Heap α) (a : Loc) (f : Node α → Node α) : Option (Heap α) :=
  (h.lookup a).map fun n => h.insert a (f n)

/-- The first node from `e` on for which `p` holds. -/
def walk (h : Heap α) (p : α → Bool) : Nat → Option Loc → Option (Option Loc)
  | _, none => some none
  | 0, some _ => none
  | k + 1, some e =>
      match h.lookup e with
      | none => none
      | some n => if p n.val then some (some e) else walk h p k n.next

/-- The last node, from `last` on. -/
def lastFrom (h : Heap α) : Nat → Loc → Option Loc
  | 0, _ => none
  | k + 1, last =>
      match h.lookup last with
      | none => none
      | some n =>
          match n.next with
          | none => some last
          | some e => lastFrom h k e

namespace Dll

/-- The list without nodes. -/
def empty : Dll α := ⟨∅, none⟩

/-- Searching from the start. -/
def find (d : Dll α) (p : α → Bool) : Option (Option Loc) := walk d.heap p (size d.heap) d.start

/-- Writing to what a node holds. -/
def modify (d : Dll α) (a : Loc) (f : α → α) : Option (Dll α) :=
  (write d.heap a fun n => { n with val := f n.val }).map fun heap => { d with heap := heap }

/-- Linking a new node to the end. -/
def pushBack (d : Dll α) (e : Loc) (v : α) : Option (Dll α) :=
  let heap := d.heap.insert e ⟨v, none, none⟩
  match d.start with
  | none => some ⟨heap, some e⟩
  | some start =>
      (lastFrom heap (size heap) start).bind fun last =>
        (write heap last fun n => { n with next := some e }).bind fun heap =>
          (write heap e fun n => { n with prev := some last }).map fun heap => ⟨heap, some start⟩

/-- The node behind `e` is made to point to the one in front of it. -/
def unlinkNext (d : Dll α) (e : Loc) : Option (Dll α) :=
  (d.heap.lookup e).bind fun n =>
    match n.next with
    | none => some d
    | some next =>
        (write d.heap next fun m => { m with prev := n.prev }).map fun heap => { d with heap := heap }

/-- The node in front of `e`, or else the start, is made to point to the one behind it. -/
def unlinkPrev (d : Dll α) (e : Loc) : Option (Dll α) :=
  (d.heap.lookup e).bind fun n =>
    match n.prev with
    | none => some { d with start := n.next }
    | some prev =>
        (write d.heap prev fun m => { m with next := n.next }).map fun heap => { d with heap := heap }

/-- Unlinking a node and freeing it. -/
def unlink (d : Dll α) (e : Loc) : Option (Dll α) :=
  (d.unlinkNext e).bind fun d => (d.unlinkPrev e).map fun d => { d with heap := d.heap.erase e }

end Dll

/-! ### Nodes in a row -/

/-- The address of the last of some nodes. -/
def lastAddr (l : List (Loc × α)) : Option Loc := (l.map (·.1)).getLast?

/-- The address of the first one. -/
def firstAddr (l : List (Loc × α)) : Option Loc := (l.map (·.1)).head?

@[simp] theorem lastAddr_nil : lastAddr ([] : List (Loc × α)) = none := rfl
@[simp] theorem firstAddr_nil : firstAddr ([] : List (Loc × α)) = none := rfl
@[simp] theorem firstAddr_cons (n : Loc × α) (l : List (Loc × α)) :
    firstAddr (n :: l) = some n.1 := rfl

@[simp] theorem lastAddr_concat (l : List (Loc × α)) (n : Loc × α) :
    lastAddr (l ++ [n]) = some n.1 := by
  simp [lastAddr]

theorem lastAddr_append {l : List (Loc × α)} (xs : List (Loc × α)) (h : l ≠ []) :
    lastAddr (xs ++ l) = lastAddr l := by
  rw [lastAddr, List.map_append, List.getLast?_append_of_ne_nil _ (by simpa using h), lastAddr]

theorem firstAddr_append {l : List (Loc × α)} (ys : List (Loc × α)) (h : l ≠ []) :
    firstAddr (l ++ ys) = firstAddr l := by
  cases l with
  | nil => exact absurd rfl h
  | cons n l => rfl

theorem mem_of_lastAddr {l : List (Loc × α)} {a : Loc} (h : lastAddr l = some a) :
    a ∈ l.map (·.1) :=
  List.mem_of_getLast? h

theorem mem_of_firstAddr {l : List (Loc × α)} {a : Loc} (h : firstAddr l = some a) :
    a ∈ l.map (·.1) :=
  List.mem_of_head? h

/-- Each node is there, between its two neighbours. -/
def Linked (h : Heap α) (l : List (Loc × α)) : Prop :=
  ∀ xs a v ys, l = xs ++ (a, v) :: ys → h.lookup a = some ⟨v, lastAddr xs, firstAddr ys⟩

/-- From `p` on, the pointers to the nodes behind lead over `as` and then end. -/
def Path (h : Heap α) : Option Loc → List Loc → Prop
  | p, [] => p = none
  | p, a :: as => p = some a ∧ ∃ n, h.lookup a = some n ∧ Path h n.next as

/-- A list whose pointers fit together, and that leads to every node once. -/
structure Dll.Wf (d : Dll α) : Prop where
  first : ∀ a, d.start = some a → ∃ n, d.heap.lookup a = some n ∧ n.prev = none
  next : ∀ a n b, d.heap.lookup a = some n → n.next = some b →
    ∃ m, d.heap.lookup b = some m ∧ m.prev = some a
  prev : ∀ a n b, d.heap.lookup a = some n → n.prev = some b →
    ∃ m, d.heap.lookup b = some m ∧ m.next = some a
  path : ∃ as : List Loc, as.Nodup ∧ Path d.heap d.start as ∧ ∀ a, a ∈ d.heap ↔ a ∈ as

/-- The nodes of `d` are those of `l`, in this order, and no others. -/
structure Dll.Holds (d : Dll α) (l : List (Loc × α)) : Prop where
  nodup : (l.map (·.1)).Nodup
  start : d.start = firstAddr l
  linked : Linked d.heap l
  live : ∀ a, a ∈ d.heap → a ∈ l.map (·.1)

variable {h h' : Heap α} {l xs ys : List (Loc × α)} {a b e : Loc} {v : α} {d : Dll α}

theorem write_eq {f : Node α → Node α} {n : Node α} (hn : h.lookup a = some n) :
    write h a f = some (h.insert a (f n)) := by
  rw [write, hn]
  rfl

theorem linked_nil (h : Heap α) : Linked h [] := by
  intro xs a v ys heq
  simp at heq

theorem Dll.holds_empty : (Dll.empty : Dll α).Holds [] :=
  ⟨List.nodup_nil, rfl, linked_nil _, fun a ha => absurd ha (AList.notMem_empty a)⟩

/-- Nodes elsewhere do not matter. -/
theorem Linked.frame (hl : Linked h l) (hsame : ∀ a ∈ l.map (·.1), h'.lookup a = h.lookup a) :
    Linked h' l := by
  intro xs a v ys heq
  rw [hsame a (by simp [heq])]
  exact hl xs a v ys heq

theorem Linked.mem (hl : Linked h l) (ha : a ∈ l.map (·.1)) : a ∈ h := by
  obtain ⟨⟨a, v⟩, hn, rfl⟩ := List.mem_map.mp ha
  obtain ⟨xs, ys, heq⟩ := List.append_of_mem hn
  exact AList.lookup_isSome.mp (by rw [hl xs a v ys heq]; rfl)

/-- There are enough nodes for a walk over the list. -/
theorem Linked.length_le (hl : Linked h l) (hnodup : (l.map (·.1)).Nodup) : l.length ≤ size h := by
  have hsub : l.map (·.1) ⊆ h.keys := fun a ha => AList.mem_keys.mp (hl.mem ha)
  have hle := (List.subperm_of_subset hnodup hsub).length_le
  rwa [List.length_map] at hle

/-! ### Walking -/

theorem Linked.walk (hl : Linked h l) (p : α → Bool) : ∀ {xs ys : List (Loc × α)} {k : Nat},
    l = xs ++ ys → ys.length ≤ k →
      Links.walk h p k (firstAddr ys) = some ((ys.find? fun n => p n.2).map (·.1)) := by
  intro xs ys
  induction ys generalizing xs with
  | nil =>
      intro k heq hk
      cases k <;> rfl
  | cons n ys ih =>
      intro k heq hk
      obtain ⟨a, v⟩ := n
      obtain ⟨k, rfl⟩ : ∃ j, k = j + 1 := ⟨k - 1, by simp only [List.length_cons] at hk; omega⟩
      have hnode := hl xs a v ys heq
      rw [firstAddr_cons, Links.walk, hnode]
      by_cases hp : p v
      · simp [hp]
      · have hrest := @ih (xs ++ [(a, v)]) k (by simp [heq]) (by simpa using hk)
        simpa [hp] using hrest

theorem Linked.lastFrom (hl : Linked h l) : ∀ {xs ys : List (Loc × α)} {k : Nat} {a : Loc} {v : α},
    l = xs ++ (a, v) :: ys → ys.length < k →
      Links.lastFrom h k a = lastAddr ((a, v) :: ys) := by
  intro xs ys
  induction ys generalizing xs with
  | nil =>
      intro k a v heq hk
      obtain ⟨k, rfl⟩ : ∃ j, k = j + 1 := ⟨k - 1, by omega⟩
      rw [Links.lastFrom, hl xs a v [] heq]
      rfl
  | cons n ys ih =>
      intro k a v heq hk
      obtain ⟨b, w⟩ := n
      obtain ⟨k, rfl⟩ : ∃ j, k = j + 1 := ⟨k - 1, by omega⟩
      rw [Links.lastFrom, hl xs a v ((b, w) :: ys) heq]
      have hrest := @ih (xs ++ [(a, v)]) k b w (by simp [heq]) (by simpa using hk)
      simpa [lastAddr] using hrest

/-- **A search finds what is in the list.** -/
theorem Dll.Holds.find (hd : d.Holds l) (p : α → Bool) :
    d.find p = some ((l.find? fun n => p n.2).map (·.1)) := by
  rw [Dll.find, hd.start]
  exact hd.linked.walk p (List.nil_append l).symm (hd.linked.length_le hd.nodup)

/-! ### Pointers -/

theorem Linked.path (hl : Linked h l) : ∀ {xs ys : List (Loc × α)}, l = xs ++ ys →
    Path h (firstAddr ys) (ys.map (·.1)) := by
  intro xs ys
  induction ys generalizing xs with
  | nil =>
      intro heq
      rfl
  | cons n ys ih =>
      intro heq
      exact ⟨rfl, _, hl xs n.1 n.2 ys heq, @ih (xs ++ [n]) (by simp [heq])⟩

/-- The node at an address, with what is in front of it and behind it. -/
theorem Dll.Holds.split (hd : d.Holds l) {n : Node α} (hn : d.heap.lookup a = some n) :
    ∃ xs ys, l = xs ++ (a, n.val) :: ys ∧ n.prev = lastAddr xs ∧ n.next = firstAddr ys := by
  have ha : a ∈ d.heap := AList.lookup_isSome.mp (by rw [hn]; rfl)
  obtain ⟨⟨b, v⟩, hmem, rfl⟩ := List.mem_map.mp (hd.live a ha)
  obtain ⟨xs, ys, rfl⟩ := List.append_of_mem hmem
  obtain rfl := Option.some.inj ((hd.linked xs b v ys rfl).symm.trans hn)
  exact ⟨xs, ys, rfl, rfl, rfl⟩

/-- What is held is well formed. -/
theorem Dll.Holds.wf (hd : d.Holds l) : d.Wf := by
  refine ⟨?_, ?_, ?_, l.map (·.1), hd.nodup, ?_, fun a => ⟨hd.live a, hd.linked.mem⟩⟩
  · intro a ha
    rw [hd.start] at ha
    cases l with
    | nil => simp at ha
    | cons n l =>
        obtain rfl := Option.some.inj ha
        exact ⟨_, hd.linked [] n.1 n.2 l rfl, rfl⟩
  · intro a n b hn hb
    obtain ⟨xs, ys, rfl, -, hnext⟩ := hd.split hn
    rw [hnext] at hb
    cases ys with
    | nil => simp at hb
    | cons m ys =>
        obtain rfl := Option.some.inj hb
        exact ⟨_, hd.linked (xs ++ [(a, n.val)]) m.1 m.2 ys (by simp), lastAddr_concat _ _⟩
  · intro a n b hn hb
    obtain ⟨xs, ys, rfl, hprev, -⟩ := hd.split hn
    rw [hprev] at hb
    rcases List.eq_nil_or_concat xs with rfl | ⟨xs, m, rfl⟩
    · simp at hb
    · rw [List.concat_eq_append, lastAddr_concat] at hb
      obtain rfl := Option.some.inj hb
      exact ⟨_, hd.linked xs m.1 m.2 ((a, n.val) :: ys) (by simp), rfl⟩
  · rw [hd.start]
    exact hd.linked.path (List.nil_append l).symm

/-! ### Adding and taking out -/

/-- A node in a list that has one more at its end. -/
theorem concat_eq_append_cons {α : Type*} {l xs ys : List α} {m n : α}
    (h : l ++ [m] = xs ++ n :: ys) :
    (ys = [] ∧ xs = l ∧ n = m) ∨ ∃ zs, ys = zs ++ [m] ∧ l = xs ++ n :: zs := by
  rcases List.eq_nil_or_concat ys with rfl | ⟨zs, k, rfl⟩
  · obtain ⟨rfl, hm⟩ := List.append_inj' h rfl
    exact .inl ⟨rfl, rfl, (List.singleton_injective hm).symm⟩
  · rw [List.concat_eq_append, ← List.cons_append, ← List.append_assoc] at h
    obtain ⟨rfl, hm⟩ := List.append_inj' h rfl
    obtain rfl := List.singleton_injective hm
    exact .inr ⟨zs, List.concat_eq_append, rfl⟩

/-- A node in a list that is two put together. -/
theorem append_eq_append_cons {α : Type*} {xs ys us vs : List α} {n : α}
    (h : xs ++ ys = us ++ n :: vs) :
    (∃ bs, xs = us ++ n :: bs ∧ vs = bs ++ ys) ∨ ∃ as, us = xs ++ as ∧ ys = as ++ n :: vs := by
  rcases List.append_eq_append_iff.mp h with ⟨as, rfl, rfl⟩ | ⟨bs, rfl, hbs⟩
  · exact .inr ⟨as, rfl, rfl⟩
  · cases bs with
    | nil => exact .inr ⟨[], by simp, by simpa using hbs.symm⟩
    | cons k bs =>
        obtain ⟨rfl, rfl⟩ := List.cons.inj (by simpa using hbs)
        exact .inl ⟨bs, rfl, rfl⟩

/-- A node is none of those in front of it. -/
theorem ne_of_front (hnodup : ((xs ++ (a, v) :: ys).map (·.1)).Nodup) (hb : b ∈ xs.map (·.1)) :
    b ≠ a := by
  rw [List.map_append, List.nodup_append] at hnodup
  exact hnodup.2.2 b hb a (by simp)

/-- A node is none of those behind it. -/
theorem ne_of_back (hnodup : ((xs ++ (a, v) :: ys).map (·.1)).Nodup) (hb : b ∈ ys.map (·.1)) :
    b ≠ a := by
  rw [List.map_append, List.nodup_append, List.map_cons, List.nodup_cons] at hnodup
  intro heq
  exact hnodup.2.1.1 (heq ▸ hb)

/-- **What a node holds can be written to.** -/
theorem Dll.Holds.modify (hd : d.Holds (xs ++ (a, v) :: ys)) (f : α → α) :
    ∃ d', d.modify a f = some d' ∧ d'.Holds (xs ++ (a, f v) :: ys) := by
  have hnode := hd.linked xs a v ys rfl
  refine ⟨_, by rw [Dll.modify, write_eq hnode]; rfl, ?_⟩
  have hkeys : (xs ++ (a, f v) :: ys).map (·.1) = (xs ++ (a, v) :: ys).map (·.1) := by simp
  refine ⟨hkeys ▸ hd.nodup, ?_, ?_, ?_⟩
  · rw [hd.start]
    cases xs <;> rfl
  · intro us b w vs heq
    rcases append_eq_append_cons heq with ⟨bs, rfl, rfl⟩ | ⟨as, rfl, htail⟩
    · have hb : b ≠ a := ne_of_front hd.nodup (by simp)
      have hold := hd.linked us b w (bs ++ (a, v) :: ys) (by simp)
      rw [AList.lookup_insert_ne hb, hold]
      cases bs <;> rfl
    · cases as with
      | nil =>
          obtain ⟨hn, rfl⟩ := List.cons.inj htail
          obtain ⟨rfl, rfl⟩ := Prod.mk.inj hn
          rw [AList.lookup_insert, List.append_nil]
      | cons n as =>
          obtain ⟨rfl, rfl⟩ := List.cons.inj htail
          have hb : b ≠ a := ne_of_back hd.nodup (by simp)
          have hold := hd.linked (xs ++ (a, v) :: as) b w vs (by simp)
          rw [AList.lookup_insert_ne hb, hold]
          simp [lastAddr]
  · intro b hb
    rw [hkeys]
    rcases (AList.mem_insert _).mp hb with rfl | hb
    · simp
    · exact hd.live b hb

/-- **A new node becomes the last one.** -/
theorem Dll.Holds.pushBack (hd : d.Holds l) (hnew : e ∉ d.heap) (v : α) :
    ∃ d', d.pushBack e v = some d' ∧ d'.Holds (l ++ [(e, v)]) := by
  have hfresh : e ∉ l.map (·.1) := fun he => hnew (hd.linked.mem he)
  have hnodup : ((l ++ [(e, v)]).map (·.1)).Nodup := by
    rw [List.map_append, List.nodup_append]
    refine ⟨hd.nodup, List.nodup_singleton _, fun b hb c hc => ?_⟩
    have hc : c = e := by simpa using hc
    rw [hc]
    exact fun hbe => hfresh (hbe ▸ hb)
  have hheap : Linked (d.heap.insert e ⟨v, none, none⟩) l := hd.linked.frame fun a ha =>
    AList.lookup_insert_ne fun hae => hfresh (hae ▸ ha)
  rcases List.eq_nil_or_concat l with rfl | ⟨init, ⟨b, w⟩, rfl⟩
  · have hstart : d.start = none := hd.start
    refine ⟨_, by rw [Dll.pushBack, hstart], hnodup, rfl, ?_, ?_⟩
    · intro xs a u ys heq
      rcases concat_eq_append_cons heq with ⟨rfl, rfl, hn⟩ | ⟨zs, -, hnil⟩
      · obtain ⟨rfl, rfl⟩ := Prod.mk.inj hn
        exact AList.lookup_insert _
      · simp at hnil
    · intro a ha
      rcases (AList.mem_insert _).mp ha with rfl | ha
      · simp
      · simpa using hd.live a ha
  · rw [List.concat_eq_append] at *
    have hbe : b ≠ e := fun h => hfresh (by simp [h])
    have hlast := hheap init b w [] rfl
    obtain ⟨start, hstart⟩ : ∃ start, d.start = some start := by
      rw [hd.start]
      cases init <;> exact ⟨_, rfl⟩
    have hwalk : lastFrom (d.heap.insert e ⟨v, none, none⟩)
        (size (d.heap.insert e ⟨v, none, none⟩)) start = some b := by
      have hlen := hheap.length_le hd.nodup
      obtain ⟨s, u, rest, hsplit⟩ : ∃ s u rest, init ++ [(b, w)] = (s, u) :: rest := by
        cases init with
        | nil => exact ⟨b, w, [], rfl⟩
        | cons n init => exact ⟨n.1, n.2, init ++ [(b, w)], rfl⟩
      have hs : start = s := by
        have hfirst := hd.start
        rw [hstart, hsplit] at hfirst
        exact Option.some.inj hfirst
      have hfar := @Linked.lastFrom _ _ _ hheap [] rest (size (d.heap.insert e ⟨v, none, none⟩)) s u
        (by simpa using hsplit) (by rw [hsplit, List.length_cons] at hlen; omega)
      rw [hs, hfar, ← hsplit, lastAddr_concat]
    have hfill : ((d.heap.insert e ⟨v, none, none⟩).insert b
        ⟨w, lastAddr init, some e⟩).lookup e = some ⟨v, none, none⟩ := by
      rw [AList.lookup_insert_ne (Ne.symm hbe), AList.lookup_insert]
    refine ⟨_, by
      rw [Dll.pushBack, hstart]
      dsimp only
      rw [hwalk, Option.bind_some, write_eq hlast, Option.bind_some, write_eq hfill]
      rfl, hnodup, ?_, ?_, ?_⟩
    · rw [← hstart, hd.start]
      cases init <;> rfl
    · intro xs a u ys heq
      rcases concat_eq_append_cons heq with ⟨rfl, rfl, hn⟩ | ⟨zs, rfl, hinit⟩
      · obtain ⟨rfl, rfl⟩ := Prod.mk.inj hn
        rw [AList.lookup_insert, lastAddr_concat]
        rfl
      · have hae : a ≠ e := fun h => hfresh (by rw [hinit, ← h]; simp)
        rw [AList.lookup_insert_ne hae]
        rcases concat_eq_append_cons hinit with ⟨rfl, rfl, hn⟩ | ⟨ts, rfl, hfront⟩
        · obtain ⟨rfl, rfl⟩ := Prod.mk.inj hn
          rw [AList.lookup_insert]
          rfl
        · have hab : a ≠ b := ne_of_front hd.nodup (by rw [hfront]; simp)
          have hold := hheap xs a u (ts ++ [(b, w)]) hinit
          rw [AList.lookup_insert_ne hab, hold,
            firstAddr_append (l := ts ++ [(b, w)]) [(e, v)] (by simp)]
    · intro a ha
      rcases (AList.mem_insert _).mp ha with rfl | ha
      · simp
      rcases (AList.mem_insert _).mp ha with rfl | ha
      · simp
      rcases (AList.mem_insert _).mp ha with rfl | ha
      · simp
      · rw [List.map_append]
        exact List.mem_append_left _ (hd.live a ha)

/-- Reading after a write. -/
theorem lookup_write {f : Node α → Node α} {n : Node α} (hn : h.lookup a = some n) (b : Loc) :
    (h.insert a (f n)).lookup b = (h.lookup b).map fun m => if a = b then f m else m := by
  by_cases hab : a = b
  · subst hab
    simp [hn]
  · rw [AList.lookup_insert_ne (Ne.symm hab)]
    simp [hab]

theorem unlinkNext_eq {n : Node α} (hn : d.heap.lookup a = some n)
    (hnext : ∀ q, n.next = some q → q ∈ d.heap) : ∃ d', d.unlinkNext a = some d' ∧
      d'.start = d.start ∧ ∀ b, d'.heap.lookup b = (d.heap.lookup b).map fun m =>
        if n.next = some b then { m with prev := n.prev } else m := by
  rw [Dll.unlinkNext, hn, Option.bind_some]
  cases hq : n.next with
  | none => exact ⟨d, rfl, rfl, fun b => by simp⟩
  | some q =>
      obtain ⟨m, hm⟩ := Option.isSome_iff_exists.mp (AList.lookup_isSome.mpr (hnext q hq))
      refine ⟨{ d with heap := d.heap.insert q { m with prev := n.prev } }, ?_, rfl, fun b => ?_⟩
      · dsimp only
        rw [write_eq hm, Option.map_some]
      · simp only [Option.some.injEq]
        exact lookup_write (f := fun m => { m with prev := n.prev }) hm b

theorem unlinkPrev_eq {n : Node α} (hn : d.heap.lookup a = some n)
    (hprev : ∀ p, n.prev = some p → p ∈ d.heap) : ∃ d', d.unlinkPrev a = some d' ∧
      d'.start = (if n.prev = none then n.next else d.start) ∧
      ∀ b, d'.heap.lookup b = (d.heap.lookup b).map fun m =>
        if n.prev = some b then { m with next := n.next } else m := by
  rw [Dll.unlinkPrev, hn, Option.bind_some]
  cases hp : n.prev with
  | none => exact ⟨_, rfl, rfl, fun b => by simp⟩
  | some p =>
      obtain ⟨m, hm⟩ := Option.isSome_iff_exists.mp (AList.lookup_isSome.mpr (hprev p hp))
      refine ⟨{ d with heap := d.heap.insert p { m with next := n.next } }, ?_, rfl, fun b => ?_⟩
      · dsimp only
        rw [write_eq hm, Option.map_some]
      · simp only [Option.some.injEq]
        exact lookup_write (f := fun m => { m with next := n.next }) hm b

/-- The two neighbours of a node point past it. -/
theorem Dll.Holds.relinked (hd : d.Holds (xs ++ (a, v) :: ys)) : ∃ d', d.unlink a = some d' ∧
    d'.start = firstAddr (xs ++ ys) ∧ d'.heap.lookup a = none ∧
    ∀ b, b ≠ a → d'.heap.lookup b = (d.heap.lookup b).map fun n =>
      ⟨n.val, if firstAddr ys = some b then lastAddr xs else n.prev,
        if lastAddr xs = some b then firstAddr ys else n.next⟩ := by
  have hnode := hd.linked xs a v ys rfl
  have hnext : ∀ q, firstAddr ys = some q → q ≠ a ∧ q ∈ d.heap := by
    intro q hq
    have hmem := mem_of_firstAddr hq
    refine ⟨ne_of_back hd.nodup hmem, hd.linked.mem ?_⟩
    rw [List.map_append, List.map_cons]
    exact List.mem_append_right _ (List.mem_cons_of_mem _ hmem)
  have hprev : ∀ p, lastAddr xs = some p → p ≠ a ∧ p ∈ d.heap := by
    intro p hp
    have hmem := mem_of_lastAddr hp
    refine ⟨ne_of_front hd.nodup hmem, hd.linked.mem ?_⟩
    rw [List.map_append]
    exact List.mem_append_left _ hmem
  obtain ⟨d₁, h₁, hstart₁, hlook₁⟩ := unlinkNext_eq hnode fun q hq => (hnext q hq).2
  have hnode₁ : d₁.heap.lookup a = some ⟨v, lastAddr xs, firstAddr ys⟩ := by
    rw [hlook₁, hnode, Option.map_some, if_neg fun hq => (hnext a hq).1 rfl]
  obtain ⟨d₂, h₂, hstart₂, hlook₂⟩ := unlinkPrev_eq hnode₁ fun p hp => by
    rw [← AList.lookup_isSome, hlook₁, Option.isSome_map]
    exact AList.lookup_isSome.mpr (hprev p hp).2
  refine ⟨_, by rw [Dll.unlink, h₁, Option.bind_some, h₂]; rfl, ?_, AList.lookup_erase _ _, ?_⟩
  · rw [hstart₂, hstart₁, hd.start]
    cases xs with
    | nil => rfl
    | cons n xs => simp [lastAddr]
  · intro b hb
    rw [AList.lookup_erase_ne hb, hlook₂, hlook₁, Option.map_map]
    cases d.heap.lookup b with
    | none => rfl
    | some m =>
        simp only [Option.map_some, Function.comp_apply, Option.some.injEq]
        split <;> split <;> rfl

/-- **A node can be taken out anywhere.** -/
theorem Dll.Holds.unlink (hd : d.Holds (xs ++ (a, v) :: ys)) :
    ∃ d', d.unlink a = some d' ∧ d'.Holds (xs ++ ys) := by
  obtain ⟨d', hrun, hstart, hgone, hlook⟩ := hd.relinked
  refine ⟨d', hrun, ?_, hstart, ?_, ?_⟩
  · refine hd.nodup.sublist ?_
    simp
  · intro us b w vs heq
    rcases append_eq_append_cons heq with ⟨bs, hxs, rfl⟩ | ⟨as, rfl, hys⟩
    · have hb : b ≠ a := ne_of_front hd.nodup (by rw [hxs]; simp)
      have hsplit : xs ++ (a, v) :: ys = us ++ (b, w) :: (bs ++ (a, v) :: ys) := by rw [hxs]; simp
      have hbehind : ∀ c ∈ (bs ++ (a, v) :: ys).map (·.1), c ≠ b := fun c hc =>
        ne_of_back (hsplit ▸ hd.nodup) hc
      have hback : firstAddr ys ≠ some b := by
        intro hq
        have hmem := mem_of_firstAddr hq
        exact hbehind b (by rw [List.map_append, List.map_cons]; simp [hmem]) rfl
      rw [hlook b hb, hd.linked us b w _ hsplit, Option.map_some, if_neg hback]
      cases bs with
      | nil =>
          rw [hxs, lastAddr_concat, if_pos rfl]
          rfl
      | cons n bs =>
          have hlast : lastAddr xs = lastAddr (n :: bs) := by
            rw [hxs, List.append_cons, lastAddr_append _ (List.cons_ne_nil n bs)]
          rw [if_neg]
          · rfl
          · intro hp
            have hmem := mem_of_lastAddr (hlast ▸ hp)
            exact hbehind b (by rw [List.map_append]; exact List.mem_append_left _ hmem) rfl
    · have hb : b ≠ a := ne_of_back hd.nodup (by rw [hys]; simp)
      have hsplit : xs ++ (a, v) :: ys = (xs ++ (a, v) :: as) ++ (b, w) :: vs := by rw [hys]; simp
      have hbefore : ∀ c ∈ (xs ++ (a, v) :: as).map (·.1), c ≠ b := fun c hc =>
        ne_of_front (hsplit ▸ hd.nodup) hc
      have hfront : lastAddr xs ≠ some b := by
        intro hp
        have hmem := mem_of_lastAddr hp
        exact hbefore b (by rw [List.map_append]; exact List.mem_append_left _ hmem) rfl
      rw [hlook b hb, hd.linked _ b w vs hsplit, Option.map_some, if_neg hfront]
      cases as with
      | nil =>
          rw [hys, List.append_nil]
          simp
      | cons n as =>
          have hfirst : firstAddr ys = some n.1 := by rw [hys]; rfl
          have hn : n.1 ≠ b := hbefore n.1 (by simp)
          rw [hfirst, if_neg (by simpa using hn)]
          have hne : (n :: as) ≠ [] := List.cons_ne_nil n as
          rw [lastAddr_append xs hne, List.append_cons, lastAddr_append _ hne]
  · intro b hb
    have hba : b ≠ a := by
      rintro rfl
      rw [← AList.lookup_isSome, hgone] at hb
      simp at hb
    rw [← AList.lookup_isSome, hlook b hba, Option.isSome_map, AList.lookup_isSome] at hb
    have hmem := hd.live b hb
    rw [List.map_append, List.map_cons, List.mem_append, List.mem_cons] at hmem
    rw [List.map_append, List.mem_append]
    exact hmem.imp_right fun h => h.resolve_left hba

end Links
