import ProgramGraph.Proofs.Store.Answering

set_option autoImplicit false

/-! # Operations in a transaction and without one

Inside a transaction of a keyed store an operation that deletes looks up what to delete in the store as
it was when the transaction began; without one it looks in the store as it is at its turn. Everything
else is the same. So operations lead to the same entries both ways if each of them finds, at its turn,
the same stored entries to delete in either place (`Keyed.FindsAlike`), and then the two stores answer
alike (`Keyed.AnswersAlike`). If the entries are the same after each of the operations, each of them
found the same (`Keyed.transaction_like_direct`).

What is saved in a transaction and deleted later in the same transaction is not found, and stays
(`Keyed.clear_spares_saved`).
-/

namespace ProgramGraph

open ProgramGraph.Text

/-! ## Maps with the same entries -/

namespace ByteMap

variable {m m' : ByteMap}

theorem equiv_of_getElem? (h : ∀ key : Bytes, m[key]? = m'[key]?) : m.Equiv m' :=
  Std.TreeMap.Equiv.of_forall_constGet?_eq h

theorem writeAll_equiv (h : m.Equiv m') (writes : List ByteWrite) :
    (m.writeAll writes).Equiv (m'.writeAll writes) := by
  induction writes generalizing m m' with
  | nil => exact h
  | cons w rest ih =>
      cases w with
      | put key value => exact ih (h.insert key value)
      | delete key => exact ih (h.erase key)

/-- **Deleting different keys** from maps with the same entries leads to the same entries just if the
same of the keys that are there are deleted. -/
theorem deleteAll_equiv_iff (h : m.Equiv m') (keys keys' : List Bytes) :
    (m.writeAll (keys.map .delete)).Equiv (m'.writeAll (keys'.map .delete)) ↔
      ∀ key ∈ m', key ∈ keys ↔ key ∈ keys' := by
  constructor
  · intro hequiv key hkey
    have hlookup := hequiv.getElem?_eq (k := key)
    rw [getElem?_deleteAll, getElem?_deleteAll, h.getElem?_eq] at hlookup
    have hsome : m'[key]? ≠ none := by
      rw [Std.TreeMap.mem_iff_isSome_getElem?] at hkey
      exact Option.isSome_iff_ne_none.mp hkey
    by_cases hin : key ∈ keys
    · by_cases hin' : key ∈ keys'
      · exact iff_of_true hin hin'
      · rw [if_pos hin, if_neg hin'] at hlookup
        exact absurd hlookup.symm hsome
    · by_cases hin' : key ∈ keys'
      · rw [if_neg hin, if_pos hin'] at hlookup
        exact absurd hlookup hsome
      · exact iff_of_false hin hin'
  · intro hsame
    refine equiv_of_getElem? fun key => ?_
    rw [getElem?_deleteAll, getElem?_deleteAll, h.getElem?_eq]
    by_cases hkey : key ∈ m'
    · rw [if_congr (hsame key hkey) rfl rfl]
    · -- A key that is not there is not there afterwards either.
      have hnone : m'[key]? = none := Std.TreeMap.getElem?_eq_none hkey
      rw [hnone, ite_self, ite_self]

end ByteMap

/-! ## Operations on a keyed store -/

namespace Action

/-- Operations that end well succeed one after the other. -/
theorem ends_forM_perform_iff {ops : List Store.Operation} {s s' : Store} :
    Ends (ops.forM perform) s () s' ↔ ops.foldlM Store.perform s = .ok s' := by
  refine ⟨fun h => ?_, ends_forM_perform⟩
  induction ops generalizing s with
  | nil => exact congrArg Except.ok (congrArg Prod.snd h)
  | cons op rest ih =>
      rw [List.foldlM_cons]
      change runOn (m := Id) (perform op >>= fun _ => rest.forM perform) s = _ at h
      cases hop : s.perform op with
      | error failure =>
          rw [bind_of_error (runOn_perform_of_error hop)] at h
          cases congrArg Prod.fst h
      | ok s₁ =>
          rw [bind_of_ends (ends_perform hop)] at h
          exact ih h

/-- In a transaction that ends well the work ends well. -/
theorem of_ends_transaction {α : Type} {body : Action α} {s s' : Store} {a : α}
    (h : Ends (transaction body) s a s') :
    ∃ s₁, Ends body s.enterScope a s₁ ∧ s' = if s.isOpen then s₁.leaveScope else s₁.commit := by
  change (if s.isOpen then closeInner else close) (runOn (m := Id) body s.enterScope) = (.ok a, s') at h
  rcases hbody : runOn (m := Id) body s.enterScope with ⟨ended, s₁⟩
  rw [hbody] at h
  cases ended with
  | error stop =>
      -- A body that does not end well is a transaction that does not end well.
      cases hopen : s.isOpen <;> rw [hopen] at h <;> cases stop <;> cases congrArg Prod.fst h
  | ok b =>
      cases hopen : s.isOpen with
      | true =>
          rw [hopen] at h
          obtain ⟨hb, rfl⟩ := Prod.mk.inj h
          exact ⟨s₁, Except.ok.inj hb ▸ hbody, rfl⟩
      | false =>
          rw [hopen] at h
          obtain ⟨hb, rfl⟩ := Prod.mk.inj h
          exact ⟨s₁, Except.ok.inj hb ▸ hbody, rfl⟩

end Action

namespace Keyed

open ProgramGraph.Action

/-! ### What is made of operations -/

/-- The entries after operations in a transaction, each worked out on the store as it was. -/
def committed (base : Keyed) (m : ByteMap) (ops : List Store.Operation) : Outcome ByteMap :=
  ops.foldlM (fun m op => (base.submission op).map m.writeAll) m

/-- The entries after operations without a transaction, each worked out on the entries of its turn. -/
def direct (base : Keyed) (m : ByteMap) (ops : List Store.Operation) : Outcome ByteMap :=
  ops.foldlM (fun m op => (({ base with entries := m } : Keyed).submission op).map m.writeAll) m

variable {base : Keyed} {m c : ByteMap}

/-- What is worked out for the first operation is made first. -/
theorem foldlM_writeAll_cons {f : ByteMap → Store.Operation → Outcome (List ByteWrite)}
    {op : Store.Operation} {rest : List Store.Operation} {m' : ByteMap} :
    (op :: rest).foldlM (fun m op => (f m op).map m.writeAll) m = .ok m' ↔
      ∃ writes, f m op = .ok writes ∧
        rest.foldlM (fun m op => (f m op).map m.writeAll) (m.writeAll writes) = .ok m' := by
  rw [List.foldlM_cons, bind_eq_ok]
  simp only [map_eq_ok]
  constructor
  · rintro ⟨_, ⟨writes, hwrites, rfl⟩, hrest⟩
    exact ⟨writes, hwrites, hrest⟩
  · rintro ⟨writes, hwrites, hrest⟩
    exact ⟨_, ⟨writes, hwrites, rfl⟩, hrest⟩

theorem committed_cons_eq_ok {op : Store.Operation} {rest : List Store.Operation} {m' : ByteMap} :
    base.committed m (op :: rest) = .ok m' ↔
      ∃ writes, base.submission op = .ok writes ∧ base.committed (m.writeAll writes) rest = .ok m' :=
  foldlM_writeAll_cons

theorem direct_cons_eq_ok {op : Store.Operation} {rest : List Store.Operation} {m' : ByteMap} :
    base.direct m (op :: rest) = .ok m' ↔
      ∃ writes, ({ base with entries := m } : Keyed).submission op = .ok writes ∧
        base.direct (m.writeAll writes) rest = .ok m' :=
  foldlM_writeAll_cons

/-- All that is submitted in a transaction is made one after the other. -/
theorem committed_eq_mapM (base : Keyed) (m : ByteMap) (ops : List Store.Operation) :
    base.committed m ops = (ops.mapM base.submission).map fun writes => m.writeAll writes.flatten := by
  induction ops generalizing m with
  | nil => rfl
  | cons op rest ih =>
      rw [committed, List.foldlM_cons, List.mapM_cons]
      cases base.submission op with
      | error failure => rfl
      | ok first =>
          refine (ih (m.writeAll first)).trans ?_
          cases rest.mapM base.submission with
          | error failure => rfl
          | ok others => exact congrArg Except.ok (m.writeAll_append first others.flatten).symm

/-- **Operations without a transaction.** -/
theorem ends_direct_iff (hopen : base.isOpen = false) {ops : List Store.Operation} {s : Store} :
    Ends (ops.forM perform) (.keyed { base with entries := m }) () s ↔
      ∃ m', base.direct m ops = .ok m' ∧ s = .keyed { base with entries := m' } := by
  rw [ends_forM_perform_iff]
  induction ops generalizing m with
  | nil =>
      constructor
      · exact fun h => ⟨m, rfl, (Except.ok.inj h).symm⟩
      · rintro ⟨m', hm', rfl⟩
        obtain rfl := Except.ok.inj hm'
        rfl
  | cons op rest ih =>
      have hsubmit : ∀ writes, ({ base with entries := m } : Keyed).submit writes =
          { base with entries := m.writeAll writes } := fun writes =>
        submit_of_not_isOpen (s := { base with entries := m }) hopen writes
      rw [List.foldlM_cons, bind_eq_ok, perform_eq]
      simp only [map_eq_ok, hsubmit, direct_cons_eq_ok]
      constructor
      · rintro ⟨_, ⟨writes, hwrites, rfl⟩, hrest⟩
        obtain ⟨m', hm', hs⟩ := ih.mp hrest
        exact ⟨m', ⟨writes, hwrites, hm'⟩, hs⟩
      · rintro ⟨m', ⟨writes, hwrites, hm'⟩, hs⟩
        exact ⟨_, ⟨writes, hwrites, rfl⟩, ih.mpr ⟨m', hm', hs⟩⟩

/-- A keyed store in a transaction collects what is submitted. -/
theorem performAll_of_submissions {k : Keyed} (open_ : k.isOpen = true) {ops : List Store.Operation}
    {writes : List (List ByteWrite)} (h : ops.mapM k.submission = .ok writes) :
    ops.foldlM Store.perform (.keyed k) =
      .ok (.keyed { k with collected := k.collected ++ writes.flatten }) := by
  induction ops generalizing k writes with
  | nil =>
      obtain rfl := Except.ok.inj h
      simp [pure, Except.pure]
  | cons op rest ih =>
      rw [List.mapM_cons, bind_eq_ok] at h
      obtain ⟨first, hfirst, h⟩ := h
      obtain ⟨others, hothers, h⟩ := bind_eq_ok.mp h
      obtain rfl := Except.ok.inj h
      rw [List.foldlM_cons, perform_eq, hfirst]
      show rest.foldlM Store.perform (.keyed (k.submit first)) = _
      rw [submit_of_isOpen open_]
      rw [← k.submission_collected (k.collected ++ first)] at hothers
      refine (ih (k := { k with collected := k.collected ++ first }) open_ hothers).trans ?_
      simp [← Array.toList_inj]

/-- **Operations in a transaction.** -/
theorem ends_transaction_iff (idle : (Store.keyed base).IsIdle) {ops : List Store.Operation} {s : Store} :
    Ends (transaction (ops.forM perform)) (.keyed base) () s ↔
      ∃ m', base.committed base.entries ops = .ok m' ∧ s = .keyed { base with entries := m' } := by
  have hsettles : (∃ m', base.committed base.entries ops = .ok m' ∧ s = .keyed { base with entries := m' }) ↔
      Settles (.keyed base) ops s := by
    simp only [committed_eq_mapM, map_eq_ok]
    constructor
    · rintro ⟨_, ⟨writes, hwrites, rfl⟩, rfl⟩
      exact ⟨writes, hwrites, rfl⟩
    · rintro ⟨writes, hwrites, rfl⟩
      exact ⟨_, ⟨writes, hwrites, rfl⟩, rfl⟩
  rw [hsettles]
  constructor
  · intro h
    obtain ⟨s₁, hbody, hs⟩ := of_ends_transaction h
    have hopen : (Store.keyed base).isOpen = false := idle.isOpen_eq
    rw [hopen] at hs
    obtain rfl : s = s₁.commit := hs
    exact Store.settles_of_performAll idle (ends_forM_perform_iff.mp hbody)
  · rintro ⟨writes, hwrites, rfl⟩
    obtain ⟨settings, entries, depth, collected, now⟩ := base
    obtain ⟨rfl, rfl⟩ : depth = 0 ∧ collected = #[] := idle
    -- What is submitted does not depend on whether a transaction is open.
    have hsame : (submission ⟨settings, entries, 1, #[], now⟩) =
        submission ⟨settings, entries, 0, #[], now⟩ := by
      funext op
      cases op <;> rfl
    have hbody := performAll_of_submissions (k := ⟨settings, entries, 1, #[], now⟩) rfl (hsame ▸ hwrites)
    have hends := ends_transaction (s := .keyed ⟨settings, entries, 0, #[], now⟩) rfl
      (ends_forM_perform_iff.mpr hbody)
    simpa [Store.commit, commit, leaveScope] using hends

/-! ### Looking up at the beginning and at the turn of an operation -/

/-- At its turn each operation finds the same stored entries to delete, whether it looks in the store as
it was at the beginning or among the entries as they are then. -/
def FindsAlike (base : Keyed) : ByteMap → List Store.Operation → Prop
  | _, [] => True
  | m, op :: rest => ∃ there here, base.submission op = .ok there ∧
      ({ base with entries := m } : Keyed).submission op = .ok here ∧
      (∀ key ∈ m, .delete key ∈ there ↔ .delete key ∈ here) ∧ FindsAlike base (m.writeAll here) rest

theorem exists_submission_of_saves (base : Keyed) {op : Store.Operation} (hop : op.saves = true) :
    ∃ writes, base.submission op = .ok writes := by
  cases op with
  | saveNode | saveEdge | saveGraph => exact ⟨_, rfl⟩
  | _ => cases hop

/-- What is saved is submitted alike everywhere, -/
theorem submission_of_saves (base : Keyed) (m : ByteMap) {op : Store.Operation} (hop : op.saves = true) :
    ({ base with entries := m } : Keyed).submission op = base.submission op := by
  cases op with
  | saveNode | saveEdge | saveGraph => rfl
  | _ => cases hop

/-- and what saves nothing deletes keys only. -/
theorem submission_of_deletes {k : Keyed} {op : Store.Operation} (hop : op.saves = false)
    {writes : List ByteWrite} (h : k.submission op = .ok writes) :
    ∃ keys : List Bytes, writes = keys.map .delete := by
  cases op with
  | deleteNode id =>
      obtain ⟨edges, rfl⟩ := nodeDeletes_cases h
      exact ⟨_, slotDeletes_eq k.layout _⟩
  | deleteEdge source target kind =>
      obtain ⟨edges, rfl⟩ := betweenDeletes_cases h
      exact ⟨_, slotDeletes_eq k.layout _⟩
  | clear =>
      obtain rfl := Except.ok.inj h
      exact ⟨_, k.allDeletes_eq_keysUnder⟩
  | _ => cases hop

/-- **One operation** on maps with the same entries: they stay the same just if the same of them are
deleted. -/
theorem writeAll_submission_equiv_iff (h : c.Equiv m) {op : Store.Operation}
    {there here : List ByteWrite} (hthere : base.submission op = .ok there)
    (hhere : ({ base with entries := m } : Keyed).submission op = .ok here) :
    (c.writeAll there).Equiv (m.writeAll here) ↔
      ∀ key ∈ m, .delete key ∈ there ↔ .delete key ∈ here := by
  cases hop : op.saves with
  | true =>
      rw [submission_of_saves base m hop, hthere] at hhere
      obtain rfl := Except.ok.inj hhere
      exact iff_of_true (ByteMap.writeAll_equiv h there) fun _ _ => Iff.rfl
  | false =>
      obtain ⟨keys, rfl⟩ := submission_of_deletes hop hthere
      obtain ⟨keys', rfl⟩ := submission_of_deletes hop hhere
      have hmem : ∀ (ks : List Bytes) key, ByteWrite.delete key ∈ ks.map ByteWrite.delete ↔ key ∈ ks :=
        fun ks key => by simp
      simp only [hmem]
      exact ByteMap.deleteAll_equiv_iff h keys keys'

/-- Operations that only save find nothing to delete. -/
theorem findsAlike_of_saves {ops : List Store.Operation} (h : ∀ op ∈ ops, op.saves = true) :
    base.FindsAlike m ops := by
  induction ops generalizing m with
  | nil => trivial
  | cons op rest ih =>
      have hop := h op List.mem_cons_self
      obtain ⟨writes, hwrites⟩ := exists_submission_of_saves base hop
      exact ⟨writes, writes, hwrites, (submission_of_saves base m hop).trans hwrites, fun _ _ => Iff.rfl,
        ih fun op hop => h op (List.mem_cons_of_mem _ hop)⟩

/-- Both ways the operations lead to the same entries. -/
def MeetsAfter (base : Keyed) (c m : ByteMap) (ops : List Store.Operation) : Prop :=
  ∃ c' m', base.committed c ops = .ok c' ∧ base.direct m ops = .ok m' ∧ c'.Equiv m'

theorem meetsAfter_cons {op : Store.Operation} {rest : List Store.Operation} :
    base.MeetsAfter c m (op :: rest) ↔ ∃ there here, base.submission op = .ok there ∧
      ({ base with entries := m } : Keyed).submission op = .ok here ∧
        base.MeetsAfter (c.writeAll there) (m.writeAll here) rest := by
  simp only [MeetsAfter, committed_cons_eq_ok, direct_cons_eq_ok]
  constructor
  · rintro ⟨c', m', ⟨there, hthere, hc'⟩, ⟨here, hhere, hm'⟩, hequiv⟩
    exact ⟨there, here, hthere, hhere, c', m', hc', hm', hequiv⟩
  · rintro ⟨there, here, hthere, hhere, c', m', hc', hm', hequiv⟩
    exact ⟨c', m', ⟨there, hthere, hc'⟩, ⟨here, hhere, hm'⟩, hequiv⟩

/-- **Operations one after the other** lead to the same entries, each of them, just if each of them finds
the same. -/
theorem findsAlike_iff {ops : List Store.Operation} (h : c.Equiv m) :
    base.FindsAlike m ops ↔ ∀ n, base.MeetsAfter c m (ops.take n) := by
  induction ops generalizing m c with
  | nil => exact iff_of_true trivial fun n => ⟨c, m, by rw [List.take_nil]; rfl, by rw [List.take_nil]; rfl, h⟩
  | cons op rest ih =>
      constructor
      · rintro ⟨there, here, hthere, hhere, hsame, hrest⟩ n
        have hequiv := (writeAll_submission_equiv_iff h hthere hhere).mpr hsame
        cases n with
        | zero => exact ⟨c, m, rfl, rfl, h⟩
        | succ n => exact meetsAfter_cons.mpr ⟨there, here, hthere, hhere, (ih hequiv).mp hrest n⟩
      · intro hall
        -- Where the first operation leads by itself shows what it deletes.
        obtain ⟨there, here, hthere, hhere, c', m', hc', hm', hequiv⟩ := meetsAfter_cons.mp (hall 1)
        obtain rfl := Except.ok.inj hc'
        obtain rfl := Except.ok.inj hm'
        refine ⟨there, here, hthere, hhere, (writeAll_submission_equiv_iff h hthere hhere).mp hequiv, ?_⟩
        refine (ih hequiv).mpr fun n => ?_
        obtain ⟨there', here', hthere', hhere', hrest⟩ := meetsAfter_cons.mp (hall (n + 1))
        obtain rfl := Except.ok.inj (hthere.symm.trans hthere')
        obtain rfl := Except.ok.inj (hhere.symm.trans hhere')
        exact hrest

/-- **In a transaction as without one.** A transaction of operations ends well. If each operation finds at
its turn the same stored entries to delete as it does in the store as it was, the operations end well
without the transaction too, and the two stores answer alike. If after each of the operations both ways
led to the same entries, each operation finds the same. -/
theorem transaction_like_direct {k : Keyed} (idle : (Store.keyed k).IsIdle) {ops : List Store.Operation}
    {s : Store} (hends : Ends (transaction (ops.forM perform)) (.keyed k) () s) :
    (k.FindsAlike k.entries ops → ∃ a b, s = .keyed a ∧
      Ends (ops.forM perform) (.keyed k) () (.keyed b) ∧ AnswersAlike a b) ∧
    ((∀ n, ∃ a b, Ends (transaction ((ops.take n).forM perform)) (.keyed k) () (.keyed a) ∧
      Ends ((ops.take n).forM perform) (.keyed k) () (.keyed b) ∧ a.entries.Equiv b.entries) ↔
        k.FindsAlike k.entries ops) := by
  have hopen : k.isOpen = false := idle.isOpen_eq
  have hmeets : ∀ ops, (∃ a b, Ends (transaction (ops.forM perform)) (.keyed k) () (.keyed a) ∧
      Ends (ops.forM perform) (.keyed k) () (.keyed b) ∧ a.entries.Equiv b.entries) ↔
        k.MeetsAfter k.entries k.entries ops := by
    intro ops
    constructor
    · rintro ⟨a, b, ha, hb, hequiv⟩
      obtain ⟨c', hc', ha⟩ := (ends_transaction_iff idle).mp ha
      obtain ⟨m', hm', hb⟩ := (ends_direct_iff hopen).mp hb
      obtain rfl := Store.keyed.inj ha
      obtain rfl := Store.keyed.inj hb
      exact ⟨c', m', hc', hm', hequiv⟩
    · rintro ⟨c', m', hc', hm', hequiv⟩
      exact ⟨_, _, (ends_transaction_iff idle).mpr ⟨c', hc', rfl⟩, (ends_direct_iff hopen).mpr ⟨m', hm', rfl⟩,
        hequiv⟩
  have hiff : k.FindsAlike k.entries ops ↔ ∀ n, k.MeetsAfter k.entries k.entries (ops.take n) :=
    findsAlike_iff .rfl
  refine ⟨fun hfinds => ?_, ?_⟩
  · obtain ⟨c', m', hc', hm', hequiv⟩ := hiff.mp hfinds ops.length
    rw [List.take_length] at hc' hm'
    obtain ⟨c'', hc'', rfl⟩ := (ends_transaction_iff idle).mp hends
    obtain rfl := Except.ok.inj (hc'.symm.trans hc'')
    exact ⟨_, _, rfl, (ends_direct_iff hopen).mpr ⟨m', hm', rfl⟩, answersAlike_of_equiv k hequiv⟩
  · rw [hiff]
    exact forall_congr' fun n => hmeets (ops.take n)

/-- A node that was there before is deleted, and another one is saved. -/
theorem transaction_like_direct_replaced :
    let k := (ofEntries { KeyedSettings.standard with defaultLife := none } ∅ 0).saveNode
      (.ofCore "x" (.module "x" "x"))
    let ops := [Store.Operation.deleteNode "x", .saveNode (.ofCore "y" (.module "y" "y"))]
    (Store.keyed k).IsIdle ∧ k.FindsAlike k.entries ops ∧
      ∃ s, Ends (transaction (ops.forM perform)) (.keyed k) () s ∧
        (∃ a b, s = .keyed a ∧ Ends (ops.forM perform) (.keyed k) () (.keyed b) ∧ AnswersAlike a b) ∧
        ((∀ n, ∃ a b, Ends (transaction ((ops.take n).forM perform)) (.keyed k) () (.keyed a) ∧
          Ends ((ops.take n).forM perform) (.keyed k) () (.keyed b) ∧ a.entries.Equiv b.entries) ↔
            k.FindsAlike k.entries ops) := by
  intro k ops
  have idle : (Store.keyed k).IsIdle := ⟨rfl, rfl⟩
  have hsome : (k.submission (.deleteNode "x")).isOk = true := by
    simp only [k, submission, nodeDeletes, edgesFrom, edgesTo, edgesUnder, liveUnder, ByteMap.scan_eq_filter]
    decide +kernel
  obtain ⟨writes, hwrites⟩ := isOk_iff.mp hsome
  have hfinds : k.FindsAlike k.entries ops :=
    ⟨writes, writes, hwrites, hwrites, fun _ _ => Iff.rfl, findsAlike_of_saves (by simp [Store.Operation.saves])⟩
  obtain ⟨m', _, hm', -, -⟩ := (findsAlike_iff (c := k.entries) .rfl).mp hfinds ops.length
  rw [List.take_length] at hm'
  have hends := (ends_transaction_iff idle).mpr ⟨m', hm', rfl⟩
  obtain ⟨halike, hiff⟩ := transaction_like_direct idle hends
  exact ⟨idle, hfinds, _, hends, halike hfinds, hiff⟩

/-- **What is saved in a transaction is not found by a deletion in it.** A node is saved and everything is
cleared: in a transaction the node stays, without one it goes. -/
theorem clear_spares_saved :
    let k := ofEntries { KeyedSettings.standard with defaultLife := none } ∅ 0
    let ops := [Store.Operation.saveNode (.ofCore "a" (.module "a" "a")), .clear]
    (Store.keyed k).IsIdle ∧ ∃ a b, Ends (transaction (ops.forM perform)) (.keyed k) () (.keyed a) ∧
      Ends (ops.forM perform) (.keyed k) () (.keyed b) ∧ a.hasNode "a" = true ∧ b.hasNode "a" = false ∧
        a.nodeCount none = 1 ∧ b.nodeCount none = 0 := by
  intro k ops
  have idle : (Store.keyed k).IsIdle := ⟨rfl, rfl⟩
  let saved := nodeWrites k.layout 0 (.ofCore "a" (.module "a" "a"))
  -- The deletion is worked out on the empty store, or on the one with the node.
  let after (base : Keyed) : Keyed :=
    { k with entries := (k.entries.writeAll saved).writeAll base.allDeletes }
  have ha : Ends (transaction (ops.forM perform)) (.keyed k) () (.keyed (after k)) :=
    (ends_transaction_iff idle).mpr ⟨_, rfl, rfl⟩
  have hopen : k.isOpen = false := rfl
  have hb : Ends (ops.forM perform) (.keyed k) () (.keyed (after (k.submit saved))) :=
    (ends_direct_iff hopen).mpr ⟨_, rfl, rfl⟩
  have hanswers : (after k).hasNode "a" = true ∧ (after (k.submit saved)).hasNode "a" = false ∧
      (after k).nodeCount none = 1 ∧ (after (k.submit saved)).nodeCount none = 0 := by
    simp only [after, saved, k, hasNode, nodeCount, liveUnder, allDeletes, ByteMap.scan_eq_filter]
    decide +kernel
  exact ⟨idle, _, _, ha, hb, hanswers⟩

end Keyed

end ProgramGraph
