/-
The pointers of the store.

A call of `udata.c` does one of four things to the nodes: nothing, writing to the one of
the user it names, linking a new one to the end, or unlinking one (`Edit`).  What it does
to the entries is what the same call does to the list (`storeDoes_list`), so that all that
is known of `Udata` is known of the heap.  Which links change can be read off from the
four (`Edit.frame`).
-/
import Smsg.Store
import Smsg.Proofs.Udata

namespace Smsg

open Links

variable {d d' : Store} {l l' xs ys : List (Loc × UdataEnt)} {u : Udata} {a new : Loc}
  {e : UdataEnt} {user : Option CString} {c : StoreCall} {calls : List StoreCall}

/-! ### What a call does to the nodes -/

/-- The nodes before a call and after it. -/
inductive Edit (c : StoreCall) :
    List (Loc × UdataEnt) → List (Loc × UdataEnt) → Prop
  | idle {l : List (Loc × UdataEnt)} (hkeep : ∀ p ∈ l, c.removes ≠ some p.2.user)
      (hadds : ∀ v, c.adds = some v → v ∈ l.map (·.2.user)) : Edit c l l
  | wrote {xs ys : List (Loc × UdataEnt)} {a : Loc} {e e' : UdataEnt} (huser : c.user = some e.user) (hkeep : c.removes = none)
      (hsame : e'.user = e.user) : Edit c (xs ++ (a, e) :: ys) (xs ++ (a, e') :: ys)
  | added {l : List (Loc × UdataEnt)} {a : Loc} {e : UdataEnt} (hadds : c.adds = some e.user) (hkeep : c.removes = none)
      (hnew : a ∉ l.map (·.1)) (hnobody : e.user ∉ l.map (·.2.user)) : Edit c l (l ++ [(a, e)])
  | removed {xs ys : List (Loc × UdataEnt)} {a : Loc} {e : UdataEnt} (hgone : c.removes = some e.user) (hadds : c.adds = none) :
      Edit c (xs ++ (a, e) :: ys) (xs ++ ys)

/-- The nodes are those of the entries of `u`. -/
structure Models (d : Store) (l : List (Loc × UdataEnt)) (u : Udata) : Prop where
  holds : d.Holds l
  ents : l.map (·.2) = u.ents

theorem Models.users (h : Models d l u) : l.map (·.2.user) = u.ents.map (·.user) := by
  rw [← h.ents, List.map_map]
  rfl

/-- A call returns what it returns on the list, and makes one edit. -/
def StoreDoes (c : StoreCall) (l : List (Loc × UdataEnt)) (res : Option (Int × Store))
    (lres : Int × Udata) : Prop :=
  ∃ d' l', res = some (lres.1, d') ∧ Models d' l' lres.2 ∧ Edit c l l'

/-! ### Looking users up -/

/-- Both lookups find the same entry. -/
theorem Models.get (h : Models d l u) (user : Option CString) :
    (d.udataGet user = some none ∧ u.udataGet user = none ∧
      ∀ v, user = some v → v ∉ l.map (·.2.user)) ∨
    ∃ xs a e ys, l = xs ++ (a, e) :: ys ∧ user = some e.user ∧ d.udataGet user = some (some a) ∧
      u.udataGet user = some e := by
  cases user with
  | none => exact .inl ⟨rfl, rfl, fun v hv => by simp at hv⟩
  | some v =>
      have hheap : d.udataGet (some v) = some ((l.find? fun n => n.2.user == v).map (·.1)) :=
        h.holds.find fun e => e.user == v
      have hlist : u.udataGet (some v) = (l.find? fun n => n.2.user == v).map (·.2) := by
        rw [Udata.udataGet, ← h.ents, List.find?_map]
        rfl
      cases hfind : l.find? fun n => n.2.user == v with
      | none =>
          rw [hfind] at hheap hlist
          refine .inl ⟨hheap, hlist, fun w hw hmem => ?_⟩
          obtain ⟨n, hn, rfl⟩ := List.mem_map.mp hmem
          simpa [Option.some.inj hw] using List.find?_eq_none.mp hfind n hn
      | some n =>
          rw [hfind] at hheap hlist
          obtain ⟨xs, ys, hsplit⟩ := List.append_of_mem (List.mem_of_find?_eq_some hfind)
          have hv : n.2.user = v := by simpa using List.find?_some hfind
          exact .inr ⟨xs, n.1, n.2, ys, hsplit, by rw [hv], hheap, hlist⟩

theorem Models.nodup (h : Models d l u) : (l.map (·.2.user)).Nodup := by
  rw [h.users]
  exact u.nodup

/-- The node of a user is found. -/
theorem Models.get_of_split (h : Models d (xs ++ (a, e) :: ys) u) :
    d.udataGet (some e.user) = some (some a) := by
  have hfind : d.udataGet (some e.user)
      = some (((xs ++ (a, e) :: ys).find? fun n => n.2.user == e.user).map (·.1)) :=
    h.holds.find fun e' => e'.user == e.user
  have hfront : (xs.find? fun n => n.2.user == e.user) = none := by
    rw [List.find?_eq_none]
    intro n hn hbad
    have hnodup := h.nodup
    rw [List.map_append, List.nodup_append] at hnodup
    exact hnodup.2.2 _ (List.mem_map_of_mem hn) e.user (by simp) (by simpa using hbad)
  rw [hfind, List.find?_append, hfront]
  simp

/-! ### One function after the other -/

/-- Writing to the entry of a user. -/
theorem modifyEnts_split {f : UdataEnt → UdataEnt} (hf : ∀ t, (f t).user = t.user)
    (hnodup : ((xs ++ (a, e) :: ys).map (·.2.user)).Nodup) :
    Udata.modifyEnts e.user f ((xs ++ (a, e) :: ys).map (·.2))
      = (xs ++ (a, f e) :: ys).map (·.2) := by
  have hothers : ∀ zs : List (Loc × UdataEnt), e.user ∉ zs.map (·.2.user) →
      Udata.modifyEnts e.user f (zs.map (·.2)) = zs.map (·.2) := by
    intro zs hno
    rw [Udata.modifyEnts, List.map_map]
    refine List.map_congr_left fun n hn => if_neg fun hbad => hno ?_
    rw [← hbad]
    exact List.mem_map_of_mem hn
  rw [List.map_append, List.map_cons, List.nodup_append, List.nodup_cons] at hnodup
  obtain ⟨-, ⟨hback, -⟩, hfront⟩ := hnodup
  have hxs := hothers xs fun hbad => hfront _ hbad e.user (by simp) rfl
  have hys := hothers ys hback
  rw [Udata.modifyEnts] at hxs hys ⊢
  rw [List.map_append, List.map_append, List.map_cons, List.map_cons, hxs, hys, if_pos rfl,
    List.map_append, List.map_cons]
  have hkeep : { f e with user := e.user } = f e := by rw [← hf e]
  rw [hkeep]

theorem Models.modify (h : Models d (xs ++ (a, e) :: ys) u) {f : UdataEnt → UdataEnt}
    (hf : ∀ t, (f t).user = t.user) : ∃ d', d.modify a f = some d' ∧
      Models d' (xs ++ (a, f e) :: ys) (u.modify e.user f) := by
  obtain ⟨d', hrun, hd'⟩ := h.holds.modify f
  refine ⟨d', hrun, hd', ?_⟩
  show _ = Udata.modifyEnts e.user f u.ents
  rw [← h.ents]
  exact (modifyEnts_split hf h.nodup).symm

/-- Adding an entry. -/
theorem Models.add (h : Models d l u) (hnew : new ∉ d.heap) (ne : UdataArg) :
    (d.udataAdd (fun _ => true) new ne = some (-1, d) ∧
      Udata.udataAdd (fun _ => true) u ne = (-1, u) ∧
      ∀ v, ne.user = some v → v ∈ l.map (·.2.user)) ∨
    ∃ v d', ne.user = some v ∧ v ∉ l.map (·.2.user) ∧
      d.udataAdd (fun _ => true) new ne = some (0, d') ∧
      (Udata.udataAdd (fun _ => true) u ne).1 = 0 ∧
      Models d' (l ++ [(new, Udata.newEnt v ne)]) (Udata.udataAdd (fun _ => true) u ne).2 := by
  cases huser : ne.user with
  | none =>
      refine .inl ⟨by rw [Store.udataAdd, huser], by simp only [Udata.udataAdd, huser], ?_⟩
      intro v hv
      simp at hv
  | some v =>
      have halloc : Udata.addAlloc (fun _ => true) ne = true := by simp [Udata.addAlloc]
      rcases h.get (some v) with ⟨hheap, hlist, hno⟩ | ⟨xs, a, e, ys, rfl, hv, hheap, hlist⟩
      · have hfresh : v ∉ u.ents.map (·.user) := by
          rw [← h.users]
          exact hno v rfl
        obtain ⟨d', hpush, hd'⟩ := h.holds.pushBack hnew (Udata.newEnt v ne)
        refine .inr ⟨v, d', rfl, hno v rfl, ?_, ?_, hd', ?_⟩
        · simp [Store.udataAdd, huser, hheap, halloc, hpush]
        · simp [Udata.udataAdd, huser, hfresh, halloc]
        · simp [Udata.udataAdd, huser, hfresh, halloc, h.ents]
      · have hthere : v ∈ u.ents.map (·.user) := by
          rw [← h.users, Option.some.inj hv]
          simp
        refine .inl ⟨by simp [Store.udataAdd, huser, hheap], ?_, ?_⟩
        · simp [Udata.udataAdd, huser, hthere]
        · intro w hw
          rw [← Option.some.inj hw, Option.some.inj hv]
          simp

theorem Models.found (h : Models d (xs ++ (a, e) :: ys) u) {f : UdataEnt → UdataEnt}
    (hf : ∀ t, (f t).user = t.user) (huser : c.user = some e.user) (hkeep : c.removes = none) (r : Int) :
    StoreDoes c (xs ++ (a, e) :: ys) ((d.modify a f).bind fun d' => some (r, d'))
      (r, u.modify e.user f) := by
  obtain ⟨d', hrun, hd'⟩ := h.modify hf
  exact ⟨d', _, by rw [hrun]; rfl, hd', .wrote huser hkeep (hf e)⟩

theorem Models.untouched (h : Models d l u) (r : Int) (hkeep : ∀ v ∈ l.map (·.2.user), c.removes ≠ some v)
    (hadds : ∀ v, c.adds = some v → v ∈ l.map (·.2.user)) :
    StoreDoes c l (some (r, d)) (r, u) :=
  ⟨d, l, rfl, h, .idle (fun _ hp => hkeep _ (List.mem_map_of_mem hp)) hadds⟩

/-- Both functions for flags. -/
theorem Models.onEntry (h : Models d l u) {f : UdataEnt → UdataEnt} (hf : ∀ t, (f t).user = t.user)
    (hkeep : c.removes = none) (hadds : c.adds = none) :
    StoreDoes c l ((d.udataGet c.user).bind fun
        | none => some (-1, d)
        | some e => (d.modify e f).bind fun d => some (0, d))
      (u.onEntry c.user fun user => u.modify user f) := by
  rcases h.get c.user with ⟨hheap, hlist, -⟩ | ⟨xs, a, e, ys, rfl, huser, hheap, hlist⟩
  · rw [hheap, Udata.onEntry, hlist]
    exact h.untouched (-1) (by simp [hkeep]) (by simp [hadds])
  · rw [hheap, Udata.onEntry, hlist]
    exact h.found hf huser hkeep 0

theorem storeDoes_remove (h : Models d l u) (user : Option CString) :
    StoreDoes (.remove user) l (d.udataRemove user) (u.udataRemove user) := by
  rcases h.get user with ⟨hheap, hlist, hno⟩ | ⟨xs, a, e, ys, rfl, huser, hheap, hlist⟩
  · simpa [Store.udataRemove, Udata.udataRemove, hheap, hlist] using
      h.untouched (c := .remove user) (-1) (fun v hv hgone => hno v hgone hv) (by simp [StoreCall.adds])
  · obtain ⟨d', hrun, hd'⟩ := h.holds.unlink
    refine ⟨d', xs ++ ys, by simp [Store.udataRemove, Udata.udataRemove, hheap, hlist, hrun],
      ⟨hd', ?_⟩, .removed huser rfl⟩
    have hnodup := h.nodup
    rw [List.map_append, List.map_cons, List.nodup_append, List.nodup_cons] at hnodup
    obtain ⟨-, ⟨hback, -⟩, hfront⟩ := hnodup
    simp only [Udata.udataRemove, hlist, ← h.ents, List.map_append, List.map_cons,
      List.filter_append]
    have hxs : (xs.map (·.2)).filter (fun e' => e'.user ≠ e.user) = xs.map (·.2) := by
      refine List.filter_eq_self.mpr fun e' he' => ?_
      obtain ⟨n, hn, rfl⟩ := List.mem_map.mp he'
      simpa using hfront _ (List.mem_map_of_mem hn) e.user (by simp)
    have hys : (ys.map (·.2)).filter (fun e' => e'.user ≠ e.user) = ys.map (·.2) := by
      refine List.filter_eq_self.mpr fun e' he' => ?_
      obtain ⟨n, hn, rfl⟩ := List.mem_map.mp he'
      simpa using fun hbad : n.2.user = e.user => hback (hbad ▸ List.mem_map_of_mem hn)
    rw [hxs, List.filter_cons_of_neg (by simp), hys]

theorem storeDoes_add (h : Models d l u) (hnew : new ∉ d.heap) (ne : UdataArg)
    (hadds : c.adds = ne.user) (hkeep : c.removes = none) :
    StoreDoes c l (d.udataAdd (fun _ => true) new ne) (Udata.udataAdd (fun _ => true) u ne) := by
  rcases h.add hnew ne with ⟨hheap, hlist, hthere⟩ | ⟨v, d', huser, hno, hheap, hzero, hd'⟩
  · rw [hheap, hlist]
    exact h.untouched (-1) (by simp [hkeep]) fun v hv => hthere v (hadds ▸ hv)
  · refine ⟨d', _, by rw [hheap, hzero], hd', .added ?_ hkeep ?_ ?_⟩
    · rw [hadds, huser]
      rfl
    · exact fun hbad => hnew (h.holds.linked.mem hbad)
    · exact hno

theorem storeDoes_setQp (h : Models d l u) (hnew : new ∉ d.heap) (user : Option CString) (queue : Ptr) :
    StoreDoes (.setQp user queue) l (d.udataSetQp (fun _ => true) new user queue)
      (StoreCall.list u (.setQp user queue)) := by
  rcases h.get user with ⟨hheap, hlist, hno⟩ | ⟨xs, a, e, ys, rfl, huser, hheap, hlist⟩
  · rcases h.add hnew { udataDefEntry with user := user } with
      ⟨hadd, -, hthere⟩ | ⟨v, d', huser, hfresh, hadd, hzero, hd'⟩
    · cases user with
      | none =>
          rw [Store.udataSetQp, hheap]
          simp only [Option.bind_eq_bind, Option.bind_some, hadd]
          exact h.untouched (-1) (by simp [StoreCall.removes]) (by simp [StoreCall.adds])
      | some v => exact absurd (hthere v rfl) (hno v rfl)
    · have huser : user = some v := huser
      subst huser
      obtain ⟨d'', hwrite, hd''⟩ := hd'.modify (f := fun t => { t with queue := queue }) fun _ => rfl
      have hagain : d'.udataGet (some v) = some (some new) := hd'.get_of_split
      have hedit : Edit (.setQp (some v) queue) l (l ++ [(new,
          { Udata.newEnt v { udataDefEntry with user := some v } with queue := queue })]) :=
        .added rfl rfl (fun hbad => hnew (h.holds.linked.mem hbad)) hfresh
      refine ⟨d'', _, ?_, ?_, hedit⟩
      · rw [Store.udataSetQp, hheap]
        simp only [Option.bind_eq_bind, Option.bind_some, hadd, le_refl, if_true, hagain, hwrite,
          StoreCall.list, Udata.udataSetQp, hlist, hzero]
      · simp only [StoreCall.list, Udata.udataSetQp, hlist, hzero, le_refl, if_true]
        exact hd''
  · subst huser
    have hdone := h.found (c := .setQp (some e.user) queue) (f := fun t => { t with queue := queue })
      (fun _ => rfl) rfl rfl 0
    simp only [StoreCall.list, Udata.udataSetQp, hlist]
    rw [Store.udataSetQp, hheap]
    exact hdone

theorem storeDoes_update (h : Models d l u) (hnew : new ∉ d.heap) (arg : UdataArg) :
    StoreDoes (.update arg) l (d.udataUpdate (fun _ => true) new arg)
      (Udata.udataUpdate (fun _ => true) u arg) := by
  rcases h.get arg.user with ⟨hheap, hlist, hno⟩ | ⟨xs, a, e, ys, rfl, huser, hheap, hlist⟩
  · have hheap' : d.udataUpdate (fun _ => true) new arg = if Udata.UdataArg.isDefault arg then
        some (0, d) else d.udataAdd (fun _ => true) new arg := by
      rw [Store.udataUpdate, hheap]
      rfl
    have hlist' : Udata.udataUpdate (fun _ => true) u arg = if Udata.UdataArg.isDefault arg then
        (0, u) else Udata.udataAdd (fun _ => true) u arg := by
      rw [Udata.udataUpdate, hlist]
      cases arg.user <;> rfl
    rw [hheap', hlist']
    by_cases hdef : Udata.UdataArg.isDefault arg
    · rw [if_pos hdef, if_pos hdef]
      exact h.untouched 0 (by simp [StoreCall.removes]) (by simp [StoreCall.adds, hdef])
    · rw [if_neg hdef, if_neg hdef]
      exact storeDoes_add h hnew arg (if_neg hdef) rfl
  · obtain ⟨d₁, hprefs, h₁⟩ := h.modify (f := fun t =>
      { t with
        tty := arg.tty.getD t.tty
        beep := if arg.beep ≠ udataLeave then arg.beep else t.beep
        mode := if arg.mode ≠ udataLeave then arg.mode else t.mode
        fd := if 0 ≤ arg.fd then arg.fd else t.fd }) fun _ => rfl
    rw [Store.udataUpdate, hheap, Udata.udataUpdate, hlist, huser]
    simp only [Option.bind_eq_bind, Option.bind_some, Bool.not_true, Bool.and_false,
      Bool.false_eq_true, if_false, hprefs]
    cases hnick : arg.nick with
    | none => exact ⟨d₁, _, rfl, h₁, .wrote huser rfl rfl⟩
    | some nick =>
        obtain ⟨d₂, hset, h₂⟩ := h₁.modify (f := fun t => { t with nick := some nick }) fun _ => rfl
        simp only [if_true, hset, Option.bind_some]
        exact ⟨d₂, _, rfl, h₂, .wrote huser rfl rfl⟩

/-- **A call does to the entries what it does to the list.** -/
theorem storeDoes_list (h : Models d l u) (hnew : new ∉ d.heap) (c : StoreCall) :
    StoreDoes c l (c.run new d) (c.list u) := by
  cases c with
  | add ne => exact storeDoes_add h hnew ne rfl rfl
  | update e => exact storeDoes_update h hnew e
  | remove user => exact storeDoes_remove h user
  | setQp user queue => exact storeDoes_setQp h hnew user queue
  | flagset user f =>
      exact h.onEntry (c := .flagset user f) (f := fun t => { t with flags := t.flags ||| f })
        (fun _ => rfl) rfl rfl
  | flagunset user f =>
      exact h.onEntry (c := .flagunset user f) (f := fun t => { t with flags := t.flags &&& ~~~f })
        (fun _ => rfl) rfl rfl

/-! ### Who there are entries for -/

theorem adds_user {v : CString} (h : c.adds = some v) : c.user = some v := by
  cases c with
  | update e =>
      simp only [StoreCall.adds] at h
      split at h
      · simp at h
      · exact h
  | remove user => simp [StoreCall.adds] at h
  | flagset user f => simp [StoreCall.adds] at h
  | flagunset user f => simp [StoreCall.adds] at h
  | add ne => exact h
  | setQp user queue => exact h

theorem removes_user {v : CString} (h : c.removes = some v) : c.user = some v := by
  cases c with
  | remove user => exact h
  | _ => simp [StoreCall.removes] at h

theorem mem_leaveOut {v : CString} {names : List CString} {gone : Option CString} :
    v ∈ leaveOut names gone ↔ v ∈ names ∧ gone ≠ some v := by
  cases gone with
  | none => simp [leaveOut]
  | some g =>
      have hne : v ≠ g ↔ some g ≠ some v := by rw [ne_comm, ne_eq, ne_eq, Option.some.injEq]
      rw [leaveOut, List.mem_filter, ← hne, decide_eq_true_iff]

theorem leaveOut_of_notMem {names : List CString} {gone : Option CString}
    (h : ∀ v ∈ names, gone ≠ some v) : leaveOut names gone = names := by
  cases gone with
  | none => rfl
  | some g =>
      refine List.filter_eq_self.mpr fun v hv => decide_eq_true_iff.mpr fun hbad => ?_
      exact h v hv (by rw [hbad])

theorem mem_putIn {v : CString} {names : List CString} {more : Option CString} :
    v ∈ putIn names more ↔ more = some v ∨ v ∈ names := by
  cases more with
  | none => simp [putIn]
  | some w =>
      rw [putIn, Option.some.injEq]
      split
      · rename_i hw
        exact ⟨.inr, fun h => h.elim (fun h => h ▸ hw) id⟩
      · rw [List.mem_append, List.mem_singleton, or_comm, eq_comm]

theorem mem_roster {v : CString} {names : List CString} :
    v ∈ c.roster names ↔ c.adds = some v ∨ (v ∈ names ∧ c.removes ≠ some v) := by
  rw [StoreCall.roster, mem_putIn, mem_leaveOut]

/-- An edit changes the users as the call does. -/
theorem Edit.roster (h : Edit c l l') (hnodup : (l.map (·.2.user)).Nodup) :
    l'.map (·.2.user) = c.roster (l.map (·.2.user)) := by
  cases h with
  | idle hkeep hadds =>
      have hleft : leaveOut (l.map (·.2.user)) c.removes = l.map (·.2.user) := by
        refine leaveOut_of_notMem fun v hv => ?_
        obtain ⟨p, hp, rfl⟩ := List.mem_map.mp hv
        exact hkeep p hp
      rw [StoreCall.roster, hleft]
      cases hc : c.adds with
      | none => rfl
      | some v => exact (if_pos (hadds v hc)).symm
  | @wrote xs ys b e e' huser hkeep hsame =>
      have hnames : (xs ++ (b, e') :: ys).map (·.2.user) = (xs ++ (b, e) :: ys).map (·.2.user) := by
        simp [hsame]
      rw [hnames, StoreCall.roster, hkeep]
      cases hc : c.adds with
      | none => rfl
      | some v =>
          have hv : v = e.user := Option.some.inj ((adds_user hc).symm.trans huser)
          exact (if_pos (by simp [leaveOut, hv])).symm
  | @added _ b e hadds hkeep hnew hnobody =>
      rw [StoreCall.roster, hkeep, hadds, leaveOut, putIn, if_neg hnobody, List.map_append]
      rfl
  | @removed xs ys b e hgone hadds =>
      rw [List.map_append, List.map_cons, List.nodup_append, List.nodup_cons] at hnodup
      obtain ⟨-, ⟨hback, -⟩, hfront⟩ := hnodup
      have hxs : leaveOut (xs.map (·.2.user)) (some e.user) = xs.map (·.2.user) :=
        leaveOut_of_notMem fun v hv hbad =>
          hfront v hv e.user (by simp) (Option.some.inj hbad).symm
      have hys : leaveOut (ys.map (·.2.user)) (some e.user) = ys.map (·.2.user) :=
        leaveOut_of_notMem fun v hv hbad => hback (Option.some.inj hbad ▸ hv)
      rw [leaveOut] at hxs hys
      rw [StoreCall.roster, hgone, hadds, putIn, leaveOut, List.map_append, List.map_append,
        List.map_cons, List.filter_append, hxs, List.filter_cons_of_neg (by simp), hys]

theorem roster_concat (calls : List StoreCall) (c : StoreCall) :
    Smsg.roster (calls ++ [c]) = c.roster (Smsg.roster calls) := by
  rw [Smsg.roster, Smsg.roster, List.foldl_append]
  rfl

theorem added_concat {v : CString} : Added (calls ++ [c]) v ↔
    c.adds = some v ∨ (Added calls v ∧ c.removes ≠ some v) := by
  constructor
  · intro h
    obtain ⟨before, k, after, heq, hadds, hkeep⟩ := h
    rcases concat_eq_append_cons heq with ⟨rfl, rfl, rfl⟩ | ⟨zs, rfl, hcalls⟩
    · exact .inl hadds
    · exact .inr ⟨⟨before, k, zs, hcalls, hadds, fun c' hc' => hkeep c' (by simp [hc'])⟩,
        hkeep c (by simp)⟩
  · rintro (hadds | ⟨⟨before, k, after, rfl, hadds, hkeep⟩, hc⟩)
    · exact ⟨calls, c, [], rfl, hadds, by simp⟩
    · refine ⟨before, k, after ++ [c], by simp, hadds, fun c' hc' => ?_⟩
      rcases List.mem_append.mp hc' with hc' | hc'
      · exact hkeep c' hc'
      · rw [List.mem_singleton.mp hc']
        exact hc

theorem mem_roster_iff {v : CString} : v ∈ Smsg.roster calls ↔ Added calls v := by
  induction calls using List.reverseRecOn with
  | nil =>
      refine ⟨fun h => by simp [Smsg.roster] at h, fun h => ?_⟩
      obtain ⟨before, k, after, heq, -⟩ := h
      simp at heq
  | append_singleton calls c ih => rw [roster_concat, mem_roster, added_concat, ih]

/-! ### What is left alone -/

/-- What becomes of one entry. -/
structure NodeKept (c : StoreCall) (d d' : Store) (n n' : Node UdataEnt) : Prop where
  user : n'.val.user = n.val.user
  val : c.user ≠ some n.val.user → n'.val = n.val
  next : n'.next = n.next ∨ LinksNew c d d' n.next n'.next ∨ PastGone c d (·.next) n.next n'.next
  prev : n'.prev = n.prev ∨ PastGone c d (·.prev) n.prev n'.prev

/-- An entry is taken out, or it is kept. -/
theorem Edit.kept (hd : d.Holds l) (hd' : d'.Holds l') (h : Edit c l l') {n : Node UdataEnt}
    (hn : d.heap.lookup a = some n) :
    (c.removes = some n.val.user ∧ a ∉ d'.heap) ∨ ∃ n', d'.heap.lookup a = some n' ∧ NodeKept c d d' n n' := by
  obtain ⟨us, vs, hsplit, hprev, hnext⟩ := hd.split hn
  cases h with
  | idle =>
      have hnode := hd'.linked us a n.val vs hsplit
      exact .inr ⟨_, hnode, rfl, fun _ => rfl, .inl hnext.symm, .inl hprev.symm⟩
  | @wrote xs ys b e e' huser hkeep hsame =>
      rcases append_eq_append_cons hsplit with ⟨bs, rfl, rfl⟩ | ⟨as, rfl, htail⟩
      · have hnode := hd'.linked us a n.val (bs ++ (b, e') :: ys) (by simp)
        refine .inr ⟨_, hnode, rfl, fun _ => rfl, .inl ?_, .inl hprev.symm⟩
        rw [hnext]
        cases bs <;> rfl
      · cases as with
        | nil =>
            obtain ⟨hb, rfl⟩ := List.cons.inj htail
            obtain ⟨rfl, rfl⟩ := Prod.mk.inj hb
            have hnode := hd'.linked xs b e' ys rfl
            refine .inr ⟨_, hnode, hsame, fun hno => absurd huser hno, .inl hnext.symm, .inl ?_⟩
            rw [hprev, List.append_nil]
        | cons k as =>
            obtain ⟨rfl, rfl⟩ := List.cons.inj htail
            have hnode := hd'.linked (xs ++ (b, e') :: as) a n.val vs (by simp)
            refine .inr ⟨_, hnode, rfl, fun _ => rfl, .inl hnext.symm, .inl ?_⟩
            rw [hprev]
            simp [lastAddr]
  | @added _ b e hadds hkeep hnew hnobody =>
      have hnode := hd'.linked us a n.val (vs ++ [(b, e)]) (by rw [hsplit]; simp)
      refine .inr ⟨_, hnode, rfl, fun _ => rfl, ?_, .inl hprev.symm⟩
      cases vs with
      | nil =>
          have hlast := hd'.linked l b e [] rfl
          exact .inr (.inl ⟨hnext, b, _, rfl, fun hb => hnew (hd.live b hb), hlast, hadds⟩)
      | cons k vs => exact .inl hnext.symm
  | @removed xs ys b e hgone hadds =>
      have hout := hd.linked xs b e ys rfl
      rcases append_eq_append_cons hsplit with ⟨bs, rfl, rfl⟩ | ⟨as, rfl, htail⟩
      · have hnode := hd'.linked us a n.val (bs ++ ys) (by simp)
        refine .inr ⟨_, hnode, rfl, fun _ => rfl, ?_, .inl hprev.symm⟩
        cases bs with
        | nil => exact .inr (.inr ⟨b, _, hnext, hout, hgone, rfl⟩)
        | cons k bs => exact .inl hnext.symm
      · cases as with
        | nil =>
            obtain ⟨hb, rfl⟩ := List.cons.inj htail
            obtain ⟨rfl, rfl⟩ := Prod.mk.inj hb
            refine .inl ⟨hgone, fun hbad => ?_⟩
            have hmem := hd'.live b hbad
            rw [List.map_append, List.mem_append] at hmem
            rcases hmem with hmem | hmem
            · exact ne_of_front hd.nodup hmem rfl
            · exact ne_of_back hd.nodup hmem rfl
        | cons k as =>
            obtain ⟨rfl, rfl⟩ := List.cons.inj htail
            have hnode := hd'.linked (xs ++ as) a n.val vs (by simp)
            refine .inr ⟨_, hnode, rfl, fun _ => rfl, .inl hnext.symm, ?_⟩
            rcases List.eq_nil_or_concat as with rfl | ⟨as, k, rfl⟩
            · refine .inr ⟨b, _, ?_, hout, hgone, by simp⟩
              rw [hprev, lastAddr_concat]
            · left
              have hne : as.concat k ≠ [] := by simp
              rw [hprev, List.append_cons, lastAddr_append _ hne, lastAddr_append _ hne]

/-- What an edit leaves alone. -/
theorem Edit.frame (hd : d.Holds l) (hd' : d'.Holds l') (h : Edit c l l') : StoreFrame c d d' := by
  have hkept := fun (a : Loc) (n : Node UdataEnt) (hn : d.heap.lookup a = some n) =>
    Edit.kept hd hd' h hn
  have hboth : ∀ a n n', d.heap.lookup a = some n → d'.heap.lookup a = some n' →
      NodeKept c d d' n n' := by
    intro a n n' hn hn'
    rcases hkept a n hn with ⟨-, hgone⟩ | ⟨n'', hn'', hk⟩
    · exact absurd (AList.lookup_isSome.mp (by rw [hn']; rfl)) hgone
    · obtain rfl := Option.some.inj (hn'.symm.trans hn'')
      exact hk
  refine ⟨?_, ?_, fun a n n' hn hn' => (hboth a n n' hn hn').next,
    fun a n n' hn hn' => (hboth a n n' hn hn').prev, ?_, ?_⟩
  · rw [hd.start, hd'.start]
    cases h with
    | idle => exact .inl rfl
    | @wrote xs ys b e e' =>
        left
        cases xs <;> rfl
    | @added _ b e hadds hkeep hnew =>
        cases l with
        | nil => exact .inr (.inl ⟨rfl, b, _, rfl, fun hb => hnew (hd.live b hb),
            hd'.linked [] b e [] rfl, hadds⟩)
        | cons k l => exact .inl rfl
    | @removed xs ys b e hgone =>
        cases xs with
        | nil => exact .inr (.inr ⟨b, _, rfl, hd.linked [] b e ys rfl, hgone, rfl⟩)
        | cons k xs => exact .inl rfl
  · intro a n hn hno
    rcases hkept a n hn with ⟨hgone, -⟩ | ⟨n', hn', hk⟩
    · exact absurd (removes_user hgone) hno
    · exact ⟨n', hn', hk.val hno⟩
  · intro a n hn hno
    rcases hkept a n hn with ⟨hgone, -⟩ | ⟨n', hn', hk⟩
    · exact absurd hgone hno
    · exact ⟨n', hn', hk.user⟩
  · intro a n' hn'
    obtain ⟨us, vs, hsplit, -⟩ := hd'.split hn'
    have hmem : (a, n'.val) ∈ l' := by rw [hsplit]; simp
    have hold : ∀ {v}, (a, v) ∈ l → a ∈ d.heap := fun hv =>
      hd.linked.mem (List.mem_map_of_mem hv)
    cases h with
    | idle => exact .inl (hold hmem)
    | @wrote xs ys b e e' =>
        rcases List.mem_append.mp hmem with hx | hx
        · exact .inl (hold (List.mem_append_left _ hx))
        · rcases List.mem_cons.mp hx with hx | hx
          · rw [(Prod.mk.inj hx).1]
            exact .inl (hd.linked.mem (by simp))
          · exact .inl (hold (List.mem_append_right _ (List.mem_cons_of_mem _ hx)))
    | @added _ b e hadds =>
        rcases List.mem_append.mp hmem with hx | hx
        · exact .inl (hold hx)
        · rw [(Prod.mk.inj (List.mem_singleton.mp hx)).2]
          exact .inr hadds
    | @removed xs ys b e =>
        rcases List.mem_append.mp hmem with hx | hx
        · exact .inl (hold (List.mem_append_left _ hx))
        · exact .inl (hold (List.mem_append_right _ (List.mem_cons_of_mem _ hx)))

/-! ### Runs -/

/-- The store after some calls is that of a list with the roster's users. -/
theorem models_reached (h : Reached calls d) :
    ∃ l u, Models d l u ∧ l.map (·.2.user) = Smsg.roster calls := by
  induction h with
  | start => exact ⟨[], .empty, ⟨Dll.holds_empty, rfl⟩, rfl⟩
  | @call calls d d' c new r h hnew hrun ih =>
      obtain ⟨l, u, hm, hnames⟩ := ih
      obtain ⟨d'', l', hrun', hm', hedit⟩ := storeDoes_list hm hnew c
      rw [hrun, Option.some.injEq, Prod.mk.injEq] at hrun'
      obtain ⟨-, rfl⟩ := hrun'
      exact ⟨l', _, hm', by rw [hedit.roster hm.nodup, hnames, roster_concat]⟩

/-- What a store with the roster's users is like. -/
theorem Models.right (h : Models d l u) (hnames : l.map (·.2.user) = Smsg.roster calls) :
    StoreRight calls d := by
  have hin : ∀ v, Added calls v ↔ v ∈ l.map (·.2.user) := fun v => by
    rw [hnames]
    exact mem_roster_iff.symm
  have hfound : ∀ v a, d.udataGet (some v) = some (some a) ↔
      ∃ n, d.heap.lookup a = some n ∧ n.val.user = v := by
    intro v a
    constructor
    · intro hget
      rcases h.get (some v) with ⟨hnone, -⟩ | ⟨xs, b, e, ys, rfl, hv, hsome, -⟩
      · rw [hnone] at hget
        simp at hget
      · obtain rfl := Option.some.inj (Option.some.inj (hsome.symm.trans hget))
        exact ⟨_, h.holds.linked xs b e ys rfl, (Option.some.inj hv).symm⟩
    · rintro ⟨n, hn, rfl⟩
      obtain ⟨us, vs, rfl, -⟩ := h.holds.split hn
      exact h.get_of_split
  refine ⟨h.holds.wf, hnames ▸ h.nodup, ⟨l, h.holds, hnames⟩, ?_, hfound, ?_⟩
  · intro v
    rw [hin]
    constructor
    · intro hget
      obtain ⟨a, hget⟩ := hget
      obtain ⟨n, hn, rfl⟩ := (hfound v a).mp hget
      obtain ⟨us, vs, rfl, -⟩ := h.holds.split hn
      simp
    · intro hv
      obtain ⟨p, hp, rfl⟩ := List.mem_map.mp hv
      obtain ⟨xs, ys, rfl⟩ := List.append_of_mem hp
      exact ⟨p.1, h.get_of_split⟩
  · intro v hno
    rcases h.get (some v) with ⟨hnone, -⟩ | ⟨xs, b, e, ys, rfl, hv, -⟩
    · exact hnone
    · exact absurd ((hin v).mpr (by simp [Option.some.inj hv])) hno

/--
**The store is right.**

After any calls the list is well formed and leads to the entries of the users that were
added and not removed since, in the order they were added in, and the next call returns and
changes nothing but the entry of its user and the links around it.
-/
theorem store_right (h : Reached calls d) : StoreRight calls d ∧
    ∀ c new, new ∉ d.heap → ∃ r d', StoreCall.run new d c = some (r, d') ∧
      StoreRight (calls ++ [c]) d' ∧ StoreFrame c d d' := by
  obtain ⟨l, u, hm, hnames⟩ := models_reached h
  refine ⟨hm.right hnames, fun c new hnew => ?_⟩
  obtain ⟨d', l', hrun, hm', hedit⟩ := storeDoes_list hm hnew c
  refine ⟨_, d', hrun, hm'.right ?_, hedit.frame hm.holds hm'.holds⟩
  rw [hedit.roster hm.nodup, hnames, roster_concat]

/-- Two users are added, the second one with a queue, and the first one is removed. -/
theorem store_right_two : ∃ d, d.start = some 8 ∧ StoreRight
    [.add { udataDefEntry with user := some ⟨[97], by decide⟩ }, .setQp (some ⟨[98], by decide⟩) .null,
      .remove (some ⟨[97], by decide⟩)] d := by
  have h₁ : Reached [.add { udataDefEntry with user := some ⟨[97], by decide⟩ }] _ :=
    .call .start (AList.notMem_empty 7) rfl
  have h₂ : Reached [.add { udataDefEntry with user := some ⟨[97], by decide⟩ },
      .setQp (some ⟨[98], by decide⟩) .null] _ := h₁.call (by decide : (8 : Loc) ∉ _) rfl
  have h₃ : Reached [.add { udataDefEntry with user := some ⟨[97], by decide⟩ },
      .setQp (some ⟨[98], by decide⟩) .null, .remove (some ⟨[97], by decide⟩)] _ :=
    h₂.call (by decide : (9 : Loc) ∉ _) rfl
  exact ⟨_, rfl, (store_right h₃).1⟩

end Smsg
