import ProgramGraph.Proofs.Store.KeyedContent
import ProgramGraph.Proofs.Store.TableContent

set_option autoImplicit false

/-! # Stores that carry a content

A store carries a content if it holds the content, no transaction is open in it and nothing that
it saves goes away by itself. From such a store an operation leads to one that carries what
`Content.step` says, and a transaction to one that carries what `Content.after` says.

A keyed store may hold a content in more than one way: with the marks under the kinds of nodes or
without looking at them. Each way is a `Keyed.Representation`, and what is said about operations and
transactions holds for any (`Store.CarriesBy`).
-/

namespace ProgramGraph

/-- A kind of store, as far as it shows in the content. -/
inductive Backend where
  | rows
  /-- Entries; the edges that reach a deleted node go with it or stay. -/
  | entries (cascades : Bool)
  deriving DecidableEq

namespace Backend

/-- The policy of a kind of store. -/
def policy : Backend → Policy
  | .rows => Table.policy
  | .entries cascades => ⟨true, cascades, true⟩

/-- What a kind of store asks of an operation. -/
def Suits (conv : Convention) : Backend → Store.Operation → Prop
  | .rows, op => op.SuitsRows
  | .entries _, op => op.SuitsEntries conv

variable {conv : Convention}

/-- A node may be deleted from either kind of store. -/
theorem suits_deleteNode (b : Backend) (id : String) : b.Suits conv (.deleteNode id) := by
  cases b with
  | rows => exact ⟨fun _ hn => (nomatch hn), fun _ he => (nomatch he)⟩
  | entries _ =>
      exact ⟨fun _ hn => (nomatch hn), fun _ he => (nomatch he), fun _ _ h => (nomatch h), fun _ _ _ h => (nomatch h)⟩

/-- An edge may be deleted if its ends are used. -/
theorem suits_deleteEdge (b : Backend) {source target : String} (hsource : conv.used source)
    (htarget : conv.used target) (kind : Option EdgeKind) :
    b.Suits conv (.deleteEdge source target kind) := by
  cases b with
  | rows => exact ⟨fun _ hn => (nomatch hn), fun _ he => (nomatch he)⟩
  | entries _ =>
      refine ⟨fun _ hn => (nomatch hn), fun _ he => (nomatch he), fun _ _ h => (nomatch h), ?_⟩
      intro source' target' kind' heq
      cases heq
      exact ⟨hsource, htarget⟩

/-- What saving a node asks for. -/
theorem suits_saveNode {b : Backend} {n : Node} (hapart : n.IsApart) (hkeeps : n.extra.KeepsFloats)
    (hfits : b = .rows ∨ n.Fits) (hkind : n.kind = conv.kindOf n.id) : b.Suits conv (.saveNode n) := by
  cases b with
  | rows =>
      refine ⟨fun m hm => ?_, fun _ he => (nomatch he)⟩
      obtain rfl := List.mem_singleton.mp hm
      exact ⟨hapart, hkeeps⟩
  | entries _ =>
      refine ⟨fun m hm => ?_, fun _ he => (nomatch he), fun _ _ h => (nomatch h), fun _ _ _ h => (nomatch h)⟩
      obtain rfl := List.mem_singleton.mp hm
      exact ⟨hapart, hfits.resolve_left (fun h => (nomatch h)), hkind⟩

/-- What saving an edge asks for. -/
theorem suits_saveEdge {b : Backend} {e : Edge} (hapart : e.IsApart) (hkeeps : e.extra.KeepsFloats)
    (hfits : b = .rows ∨ e.Fits) (hsource : conv.used e.source) (htarget : conv.used e.target) :
    b.Suits conv (.saveEdge e) := by
  cases b with
  | rows =>
      refine ⟨fun _ hn => (nomatch hn), fun d hd => ?_⟩
      obtain rfl := List.mem_singleton.mp hd
      exact ⟨hapart, hkeeps⟩
  | entries _ =>
      refine ⟨fun _ hn => (nomatch hn), fun d hd => ?_, fun _ _ h => (nomatch h), fun _ _ _ h => (nomatch h)⟩
      obtain rfl := List.mem_singleton.mp hd
      exact ⟨hapart, hfits.resolve_left (fun h => (nomatch h)), hsource, htarget⟩

end Backend

/-- Time has passed. -/
def Store.atMoment (now : UInt64) : Store → Store
  | .table t => .table t
  | .keyed k => .keyed { k with now := now }

/-- The store is of the kind, is at rest and holds the content. -/
inductive Store.Carries (conv : Convention) : Backend → Store → Content → Prop where
  | table {t : Table} {c : Content} (idle : t.saved = none) (sound : t.state.trouble = none)
      (holds : t.rows.Holds c) : Carries conv .rows (.table t) c
  | keyed {k : Keyed} {c : Content} (idle : (Store.keyed k).IsIdle)
      (stays : k.settings.defaultLife = none) (holds : k.HoldsContent conv c) :
      Carries conv (.entries k.settings.cascadeIncoming) (.keyed k) c

/-- A store of the kind into which nothing has been put, and in which nothing is to expire. -/
inductive Store.IsFresh : Backend → Store → Prop where
  | table (settings : TableSettings) : IsFresh .rows (.table (.ofRows settings .empty))
  | keyed {settings : KeyedSettings} (stays : settings.defaultLife = none) (now : UInt64) :
      IsFresh (.entries settings.cascadeIncoming) (.keyed (.ofEntries settings ∅ now))

/-! ## Work that ends well -/

namespace Action

variable {α β : Type} {s s' : Store} {a : α}

/-- The work ends well, with a result and another store. -/
def Ends (work : Action α) (s : Store) (a : α) (s' : Store) : Prop :=
  runOn (m := Id) work s = (.ok a, s')

/-- Work that does not begin well ends so. -/
theorem bind_of_error {first : Action α} {next : α → Action β} {stop : Stop}
    (h : runOn (m := Id) first s = (.error stop, s')) :
    runOn (m := Id) (first >>= next) s = (.error stop, s') := by
  have hrun : first s = (.error stop, s') := h
  show StateT.bind first (ExceptT.bindCont next) s = _
  rw [StateT.bind, hrun]
  rfl

theorem bind_of_ends {first : Action α} {next : α → Action β} (h : Ends first s a s') :
    runOn (m := Id) (first >>= next) s = runOn (m := Id) (next a) s' := by
  have hrun : first s = (.ok a, s') := h
  show StateT.bind first (ExceptT.bindCont next) s = _
  rw [StateT.bind, hrun]
  rfl

/-- Work goes alike if it begins alike and goes on alike from where a beginning that ends well leads. -/
theorem bind_eq_bind {first first' : Action α} {next next' : α → Action β}
    (hfirst : runOn (m := Id) first s = runOn (m := Id) first' s)
    (hnext : ∀ a s', Ends first' s a s' →
      runOn (m := Id) (next a) s' = runOn (m := Id) (next' a) s') :
    runOn (m := Id) (first >>= next) s = runOn (m := Id) (first' >>= next') s := by
  rcases hrun : runOn (m := Id) first' s with ⟨stop | a, s'⟩
  · rw [bind_of_error hrun, bind_of_error (hfirst.trans hrun)]
  · rw [bind_of_ends hrun, bind_of_ends (hfirst.trans hrun)]
    exact hnext a s' hrun

theorem ends_bind {first : Action α} {next : α → Action β} {b : β} {s'' : Store}
    (hfirst : Ends first s a s') (hnext : Ends (next a) s' b s'') : Ends (first >>= next) s b s'' :=
  (bind_of_ends hfirst).trans hnext

theorem ends_read {f : Store → Outcome α} (h : f s = .ok a) : Ends (read f) s a s := by
  show read f s = _
  rw [read, h]
  rfl

theorem runOn_read_of_error {f : Store → Outcome α} {failure : Failure} (h : f s = .error failure) :
    runOn (m := Id) (read f) s = (.error (.failed failure), s) := by
  show read f s = _
  rw [read, h]
  rfl

theorem ends_perform {op : Store.Operation} (h : s.perform op = .ok s') : Ends (perform op) s () s' := by
  show write (fun s => s.perform op) s = _
  rw [write, h]
  rfl

theorem runOn_perform_of_error {op : Store.Operation} {failure : Failure} (h : s.perform op = .error failure) :
    runOn (m := Id) (perform op) s = (.error (.failed failure), s) := by
  show write (fun s => s.perform op) s = _
  rw [write, h]
  rfl

/-- Operations that succeed one after the other are work that ends well. -/
theorem ends_forM_perform {ops : List Store.Operation}
    (h : ops.foldlM Store.perform s = .ok s') : Ends (ops.forM perform) s () s' := by
  induction ops generalizing s with
  | nil =>
      obtain rfl : s = s' := Except.ok.inj h
      rfl
  | cons op rest ih =>
      rw [List.foldlM_cons] at h
      obtain ⟨s₁, hop, hrest⟩ := bind_eq_ok.mp h
      exact ends_bind (ends_perform hop) (ih hrest)

/-- An outermost transaction over work that ends well keeps its changes. -/
theorem ends_transaction {body : Action α} {a : α} (hopen : s.isOpen = false)
    (h : Ends body s.enterScope a s') : Ends (transaction body) s a s'.commit := by
  show (if s.isOpen then closeInner else close) (runOn (m := Id) body s.enterScope) = _
  rw [show runOn (m := Id) body s.enterScope = _ from h, hopen]
  rfl

end Action

/-! ## Operations one after the other -/

namespace Table

variable {t : Table} {c : Content}

theorem performAll_eq (hstate : t.state.trouble = none) (ops : List Store.Operation) :
    ops.foldlM Store.perform (.table t) = .ok (.table (t.change fun rows => ops.foldl rowsAfter rows)) := by
  induction ops generalizing t with
  | nil => rfl
  | cons op rest ih =>
      rw [List.foldlM_cons, perform_eq hstate]
      exact ih (t := t.change fun rows => rowsAfter rows op) hstate

theorem holds_foldl {rows : Rows} (h : rows.Holds c) {ops : List Store.Operation}
    (hops : ∀ op ∈ ops, op.SuitsRows) : (ops.foldl rowsAfter rows).Holds (c.after policy ops) := by
  have hrun : ∀ acc : Content, c.after policy ops = ops.foldl (fun acc op => acc.step policy acc op) c :=
    fun _ => rfl
  rw [hrun c]
  clear hrun
  induction ops generalizing rows c with
  | nil => exact h
  | cons op rest ih =>
      exact ih (holds_rowsAfter h (hops op List.mem_cons_self)) fun o ho =>
        hops o (List.mem_cons_of_mem _ ho)

end Table

/-! ## Ways to hold a content -/

/-- A way in which the entries of a keyed store hold a content, and what operations are like that
keep it up, also if what they submit was worked out on an earlier content. -/
structure Keyed.Representation where
  Holds : KeyLayout → ByteMap → Content → Prop
  Suits : Store.Operation → Prop
  submission_eq : ∀ {k : Keyed} {base : Content} {m : ByteMap} {c : Content} {op : Store.Operation},
    Holds k.layout k.entries base → k.settings.defaultLife = none → Holds k.layout m c → Suits op →
      ∃ writes, k.submission op = .ok writes ∧
        Holds k.layout (m.writeAll writes) (c.step k.policy base op)

namespace Keyed.Representation

/-- All slots are filled as the content says. -/
def full (conv : Convention) : Keyed.Representation where
  Holds layout entries c := Keyed.Holds layout conv entries c
  Suits op := op.SuitsEntries conv
  submission_eq h hlife hm hop := Keyed.HoldsContent.submission_eq h hlife hm hop

/-- The slots of nodes and edges are filled as the content says. -/
def records {used : String → Prop} (unambiguous : Unambiguous used) : Keyed.Representation where
  Holds layout entries c := Keyed.HoldsRecords layout used entries c
  Suits op := op.SuitsRecords used
  submission_eq h hlife hm hop := h.submission_eq unambiguous hlife hm hop

variable (r : Keyed.Representation) {k : Keyed} {base c : Content}

/-- In a transaction all that is submitted is collected. -/
theorem performAll_eq (h : r.Holds k.layout k.entries base)
    (hlife : k.settings.defaultLife = none) (hopen : k.isOpen = true)
    (hm : r.Holds k.layout (k.entries.writeAll k.collected.toList) c)
    {ops : List Store.Operation} (hops : ∀ op ∈ ops, r.Suits op) :
    ∃ collected : Array ByteWrite,
      ops.foldlM Store.perform (.keyed k) = .ok (.keyed { k with collected := collected }) ∧
        r.Holds k.layout (k.entries.writeAll collected.toList)
          (ops.foldl (fun acc op => acc.step k.policy base op) c) := by
  induction ops generalizing k c with
  | nil => exact ⟨k.collected, rfl, hm⟩
  | cons op rest ih =>
      obtain ⟨writes, hwrites, hheld⟩ := r.submission_eq h hlife hm (hops op List.mem_cons_self)
      have hnext : r.Holds k.layout (k.entries.writeAll (k.collected ++ writes).toList)
          (c.step k.policy base op) := by
        simpa [ByteMap.writeAll_append] using hheld
      have hperform : (Store.keyed k).perform op = .ok (.keyed { k with collected := k.collected ++ writes }) := by
        rw [perform_eq, hwrites, ← submit_of_isOpen hopen]
        rfl
      rw [List.foldlM_cons, hperform]
      exact ih (k := { k with collected := k.collected ++ writes }) h hlife hopen hnext fun o ho =>
        hops o (List.mem_cons_of_mem _ ho)

end Keyed.Representation

/-- What a kind of store asks of an operation, given how its entries hold a content. -/
def Backend.SuitsBy (r : Keyed.Representation) : Backend → Store.Operation → Prop
  | .rows, op => op.SuitsRows
  | .entries _, op => r.Suits op

/-- The store is of the kind, is at rest and holds the content in a way. -/
inductive Store.CarriesBy (r : Keyed.Representation) : Backend → Store → Content → Prop where
  | table {t : Table} {c : Content} (idle : t.saved = none) (sound : t.state.trouble = none)
      (holds : t.rows.Holds c) : CarriesBy r .rows (.table t) c
  | keyed {k : Keyed} {c : Content} (idle : (Store.keyed k).IsIdle)
      (stays : k.settings.defaultLife = none) (holds : r.Holds k.layout k.entries c) :
      CarriesBy r (.entries k.settings.cascadeIncoming) (.keyed k) c

namespace Store.CarriesBy

variable {r : Keyed.Representation} {b : Backend} {s : Store} {c : Content}

theorem isOpen_eq (h : s.CarriesBy r b c) : s.isOpen = false := by
  cases h with
  | table idle => exact IsIdle.isOpen_eq (s := .table _) idle
  | keyed idle => exact IsIdle.isOpen_eq idle

/-- **An operation** keeps step with the content. -/
theorem perform (h : s.CarriesBy r b c) {op : Operation} (hop : b.SuitsBy r op) :
    ∃ s', s.perform op = .ok s' ∧ s'.CarriesBy r b (c.step b.policy c op) := by
  cases h with
  | table idle sound holds =>
      exact ⟨_, Table.perform_eq sound op, .table idle sound (Table.holds_rowsAfter holds hop)⟩
  | @keyed k _ idle stays holds =>
      obtain ⟨writes, hwrites, hheld⟩ := r.submission_eq holds stays holds hop
      have hsubmit := Keyed.submit_of_not_isOpen idle.isOpen_eq writes
      refine ⟨.keyed (k.submit writes), by rw [Keyed.perform_eq, hwrites]; rfl, ?_⟩
      rw [hsubmit]
      exact .keyed (k := { k with entries := k.entries.writeAll writes }) idle stays hheld

/-- **Operations one by one** keep step with the content. -/
theorem performEach (h : s.CarriesBy r b c) {ops : List Operation} (hops : ∀ op ∈ ops, b.SuitsBy r op) :
    ∃ s', Action.Ends (ops.forM Action.perform) s () s' ∧ s'.CarriesBy r b (c.afterEach b.policy ops) := by
  induction ops generalizing s c with
  | nil => exact ⟨s, rfl, h⟩
  | cons op rest ih =>
      obtain ⟨s₁, hop, h₁⟩ := h.perform (hops op List.mem_cons_self)
      obtain ⟨s₂, hrest, h₂⟩ := ih h₁ fun o ho => hops o (List.mem_cons_of_mem _ ho)
      exact ⟨s₂, Action.ends_bind (Action.ends_perform hop) hrest, h₂⟩

/-- **A transaction** keeps step with the content. -/
theorem transaction (h : s.CarriesBy r b c) {ops : List Operation}
    (hops : ∀ op ∈ ops, b.SuitsBy r op) :
    ∃ s', Action.Ends (Action.transaction (ops.forM Action.perform)) s () s' ∧
      s'.CarriesBy r b (c.after b.policy ops) := by
  have hopen := h.isOpen_eq
  cases h with
  | @table t _ idle sound holds =>
      have hrun := Table.performAll_eq (t := t.enterScope) sound ops
      refine ⟨_, Action.ends_transaction hopen (Action.ends_forM_perform hrun), ?_⟩
      exact .table rfl sound (Table.holds_foldl holds hops)
  | @keyed k _ idle stays holds =>
      have hcollected : k.collected.toList = [] := by rw [idle.2]
      -- Nothing waits at first, so making what waits changes nothing.
      have hentries : r.Holds k.layout (k.entries.writeAll k.collected.toList) c := by
        rw [hcollected]
        exact holds
      obtain ⟨collected, hrun, hheld⟩ :=
        r.performAll_eq (k := k.enterScope) holds stays (by simp [Keyed.isOpen, Keyed.enterScope])
          hentries hops
      refine ⟨_, Action.ends_transaction hopen (Action.ends_forM_perform hrun), ?_⟩
      exact .keyed (k := { k with entries := k.entries.writeAll collected.toList, depth := _, collected := _ })
        ⟨by simp [Keyed.enterScope, idle.1], by simp⟩ stays hheld

/-- Time may pass. -/
theorem atMoment (h : s.CarriesBy r b c) (now : UInt64) : (s.atMoment now).CarriesBy r b c := by
  cases h with
  | table idle sound holds => exact .table idle sound holds
  | @keyed k _ idle stays holds => exact .keyed (k := { k with now := now }) idle stays holds

end Store.CarriesBy

/-! ## What a store carries -/

namespace Store.Carries

variable {conv : Convention} {b : Backend} {s : Store} {c : Content}

/-- Carrying a content is carrying it with all its slots. -/
theorem iff_carriesBy : s.Carries conv b c ↔ s.CarriesBy (.full conv) b c := by
  constructor
  · rintro (⟨idle, sound, holds⟩ | ⟨idle, stays, holds⟩)
    · exact .table idle sound holds
    · exact .keyed idle stays holds
  · rintro (⟨idle, sound, holds⟩ | ⟨idle, stays, holds⟩)
    · exact .table idle sound holds
    · exact .keyed idle stays holds

theorem suitsBy {op : Operation} (h : b.Suits conv op) : b.SuitsBy (.full conv) op := by
  cases b <;> exact h

theorem shows (h : s.Carries conv b c) : s.Shows c := by
  cases h with
  | table _ sound holds => exact Table.shows (.inl sound) holds
  | keyed _ _ holds => exact holds.shows

theorem exists_table (h : s.Carries conv .rows c) : ∃ t, s = .table t := by
  cases h with
  | @table t => exact ⟨t, rfl⟩

theorem exists_keyed {cascades : Bool} (h : s.Carries conv (.entries cascades) c) :
    ∃ k, s = .keyed k := by
  generalize hkind : Backend.entries cascades = kind at h
  cases h with
  | table => cases hkind
  | @keyed k => exact ⟨k, rfl⟩

/-- A fresh table store carries nothing. -/
theorem of_noRows (conv : Convention) (settings : TableSettings) :
    (Store.table (.ofRows settings .empty)).Carries conv .rows ∅ :=
  .table rfl rfl Rows.holds_empty

/-- A fresh keyed store carries nothing. -/
theorem of_noEntries (conv : Convention) {settings : KeyedSettings} (stays : settings.defaultLife = none)
    (now : UInt64) :
    (Store.keyed (.ofEntries settings ∅ now)).Carries conv (.entries settings.cascadeIncoming) ∅ :=
  .keyed (k := .ofEntries settings ∅ now) ⟨rfl, rfl⟩ stays (Keyed.holds_empty _ conv)

/-- **An operation** keeps step with the content. -/
theorem perform (h : s.Carries conv b c) {op : Operation} (hop : b.Suits conv op) :
    ∃ s', s.perform op = .ok s' ∧ s'.Carries conv b (c.step b.policy c op) := by
  obtain ⟨s', hrun, hs'⟩ := (iff_carriesBy.mp h).perform (suitsBy hop)
  exact ⟨s', hrun, iff_carriesBy.mpr hs'⟩

/-- **A transaction** keeps step with the content. -/
theorem transaction (h : s.Carries conv b c) {ops : List Operation}
    (hops : ∀ op ∈ ops, b.Suits conv op) :
    ∃ s', Action.Ends (Action.transaction (ops.forM Action.perform)) s () s' ∧
      s'.Carries conv b (c.after b.policy ops) := by
  obtain ⟨s', hrun, hs'⟩ := (iff_carriesBy.mp h).transaction fun op hop => suitsBy (hops op hop)
  exact ⟨s', hrun, iff_carriesBy.mpr hs'⟩

/-- Time may pass. -/
theorem atMoment (h : s.Carries conv b c) (now : UInt64) : (s.atMoment now).Carries conv b c :=
  iff_carriesBy.mpr ((iff_carriesBy.mp h).atMoment now)

end Store.Carries

end ProgramGraph
