import LinkedonPush.Theory.Run
import Mathlib.Logic.Function.Basic

/-!
# Find or insert

Processes that share a store of documents. Some of what a process does asks for a document: it looks
for one that matches and inserts one if it has found none. The two calls are apart, and between them
the other processes go on; a search may also fail, and then it has found none. So several documents may
come to match. The process itself waits.
-/

namespace Theory

namespace Upsert

/-- What a process waits for. -/
inductive Call (ρ : Type) where
  | find (r : ρ)
  | insert (r : ρ)

structure Node (σ ρ : Type) where
  state : σ
  pending : List (Call ρ)

structure World (σ ρ δ : Type) where
  nodes : Nat → Node σ ρ
  store : List δ

inductive Event (ο ρ δ : Type) where
  | process (n : Nat) (o : ο)
  | lost (n : Nat) (r : ρ)
  | inserted (n : Nat) (r : ρ) (document : δ)
  | failed (n : Nat) (r : ρ)

/-- Processes with their own steps, some of whose observations are requests; `fits` tells whether a
document is one that a query asks for. -/
structure System (σ ο ρ κ δ : Type) where
  step : Nat → σ → List ο → σ → Prop
  request? : Nat → ο → Option ρ
  query : ρ → κ
  document : ρ → Int → δ
  fits : κ → δ → Bool

variable {σ ο ρ κ δ : Type}

namespace World

/-- Process `n` goes on and waits for the calls. -/
def put (w : World σ ρ δ) (n : Nat) (node : Node σ ρ) : World σ ρ δ :=
  { w with nodes := Function.update w.nodes n node }

/-- Process `n` goes on waiting. -/
def await (w : World σ ρ δ) (n : Nat) (pending : List (Call ρ)) : World σ ρ δ :=
  w.put n ⟨(w.nodes n).state, pending⟩

@[simp] theorem put_self (w : World σ ρ δ) (n : Nat) (node : Node σ ρ) : (w.put n node).nodes n = node :=
  Function.update_self ..

theorem put_of_ne (w : World σ ρ δ) {n n' : Nat} (node : Node σ ρ) (hne : n' ≠ n) :
    (w.put n node).nodes n' = w.nodes n' :=
  Function.update_of_ne hne ..

end World

namespace System

def requests (sys : System σ ο ρ κ δ) (n : Nat) (shown : List ο) : List ρ :=
  shown.filterMap (sys.request? n)

/-- The store has a document for the request. -/
def has (sys : System σ ο ρ κ δ) (store : List δ) (r : ρ) : Bool := store.any (sys.fits (sys.query r))

inductive Step (sys : System σ ο ρ κ δ) : World σ ρ δ → List (Event ο ρ δ) → World σ ρ δ → Prop where
  | process {w : World σ ρ δ} {shown : List ο} {s : σ} (n : Nat) (hidle : (w.nodes n).pending = [])
      (h : sys.step n (w.nodes n).state shown s) :
      Step sys w (shown.map (.process n)) (w.put n ⟨s, (sys.requests n shown).map .find⟩)
  | found {w : World σ ρ δ} (n : Nat) (r : ρ) (rest : List (Call ρ))
      (hpending : (w.nodes n).pending = .find r :: rest) (hfound : sys.has w.store r = true) :
      Step sys w [] (w.await n rest)
  | missing {w : World σ ρ δ} (n : Nat) (r : ρ) (rest : List (Call ρ))
      (hpending : (w.nodes n).pending = .find r :: rest) (hmissing : sys.has w.store r = false) :
      Step sys w [] (w.await n (.insert r :: rest))
  | lost {w : World σ ρ δ} (n : Nat) (r : ρ) (rest : List (Call ρ))
      (hpending : (w.nodes n).pending = .find r :: rest) :
      Step sys w [.lost n r] (w.await n (.insert r :: rest))
  | insert {w : World σ ρ δ} (n : Nat) (r : ρ) (time : Int) (rest : List (Call ρ))
      (hpending : (w.nodes n).pending = .insert r :: rest) :
      Step sys w [.inserted n r (sys.document r time)]
        { w.await n rest with store := w.store ++ [sys.document r time] }
  | fail {w : World σ ρ δ} (n : Nat) (r : ρ) (rest : List (Call ρ))
      (hpending : (w.nodes n).pending = .insert r :: rest) :
      Step sys w [.failed n r] (w.await n rest)

/-- No process waits at the start. -/
def Start (init : Nat → σ → Prop) (store : List δ) (w : World σ ρ δ) : Prop :=
  w.store = store ∧ ∀ n, init n (w.nodes n).state ∧ (w.nodes n).pending = []

abbrev Reached (sys : System σ ο ρ κ δ) (init : Nat → σ → Prop) (store : List δ) :
    List (Event ο ρ δ) → World σ ρ δ → Prop :=
  Run (Start init store) sys.Step

end System

/-! ### What one process does -/

def Event.process? (n : Nat) : Event ο ρ δ → Option ο
  | .process n' o => if n' = n then some o else none
  | _ => none

def view (n : Nat) (trace : List (Event ο ρ δ)) : List ο := trace.filterMap (Event.process? n)

section view

variable {sys : System σ ο ρ κ δ} {init : Nat → σ → Prop} {store : List δ} {trace : List (Event ο ρ δ)}
  {w : World σ ρ δ}

theorem view_append (n : Nat) (trace shown : List (Event ο ρ δ)) :
    view n (trace ++ shown) = view n trace ++ view n shown := List.filterMap_append

theorem view_map_self (n : Nat) (shown : List ο) :
    view n (shown.map (Event.process (ρ := ρ) (δ := δ) n)) = shown := by
  rw [view, List.filterMap_map]
  have hsome : (Event.process? n : Event ο ρ δ → Option ο) ∘ Event.process n = some := by
    funext o
    exact if_pos rfl
  rw [hsome, List.filterMap_some]

theorem view_map_ne {n n' : Nat} (hne : n' ≠ n) (shown : List ο) :
    view n (shown.map (Event.process (ρ := ρ) (δ := δ) n')) = [] := by
  rw [view, List.filterMap_map, List.filterMap_eq_nil_iff]
  exact fun o _ => if_neg hne

/-- What a process does is a run of its own. -/
theorem System.Reached.node (hrun : sys.Reached init store trace w) (n : Nat) :
    Run (init n) (sys.step n) (view n trace) (w.nodes n).state := by
  induction hrun with
  | start hstart => exact .start (hstart.2 n).1
  | next _ hstep ih =>
      rw [view_append]
      have hwaits : ∀ (w : World σ ρ δ) (n' : Nat) (pending : List (Call ρ)),
          ((w.await n' pending).nodes n).state = (w.nodes n).state := by
        intro w n' pending
        by_cases hn : n = n'
        · rw [hn, World.await, World.put_self]
        · rw [World.await, World.put_of_ne w _ hn]
      cases hstep with
      | process n' hidle h =>
          by_cases hn : n = n'
          · subst hn
            rw [view_map_self, World.put_self]
            exact ih.next h
          · rw [view_map_ne (Ne.symm hn), World.put_of_ne _ _ hn, List.append_nil]
            exact ih
      | found n' | missing n' | lost n' | fail n' =>
          rw [hwaits]
          exact (List.append_nil (view n _)).symm ▸ ih
      | insert n' r time rest =>
          change Run _ _ _ ((World.await _ n' rest).nodes n).state
          rw [hwaits]
          exact (List.append_nil (view n _)).symm ▸ ih

/-- A process that does not wait and asks for nothing goes on as it would alone. -/
theorem System.Reached.replay (hrun : sys.Reached init store trace w) {n : Nat} {shown : List ο} {s : σ}
    (hidle : (w.nodes n).pending = []) (hown : Run (· = (w.nodes n).state) (sys.step n) shown s)
    (hasks : sys.requests n shown = []) :
    sys.Reached init store (trace ++ shown.map (.process n)) (w.put n ⟨s, []⟩) := by
  induction hown with
  | start hstart =>
      rw [List.map_nil, List.append_nil, hstart, ← hidle]
      have hsame : w.put n (w.nodes n) = w := by rw [World.put, Function.update_eq_self]
      rwa [hsame]
  | next _ hstep ih =>
      obtain ⟨hbefore, hnow⟩ := List.append_eq_nil_iff.mp (List.filterMap_append.symm.trans hasks)
      have hnext := (ih hbefore).next (.process n (by rw [World.put_self]) (by rw [World.put_self]; exact hstep))
      have hput : ∀ node node' : Node σ ρ, (w.put n node).put n node' = w.put n node' := by
        intro node node'
        simp only [World.put, Function.update_idem]
      rw [hput] at hnext
      rw [List.map_append, ← List.append_assoc]
      unfold System.requests at hnext
      rwa [hnow] at hnext

/-- Two processes that are both about to look for what is not there both insert it. -/
theorem System.Reached.race (hrun : sys.Reached init store trace w) {n n' : Nat} {r r' : ρ} (hne : n' ≠ n)
    (hpending : (w.nodes n).pending = [.find r]) (hpending' : (w.nodes n').pending = [.find r'])
    (hmissing : sys.has w.store r = false) (hmissing' : sys.has w.store r' = false) (time : Int) :
    ∃ w', sys.Reached init store
        (trace ++ [.inserted n r (sys.document r time), .inserted n' r' (sys.document r' time)]) w' ∧
      w'.store = w.store ++ [sys.document r time, sys.document r' time] ∧ (w'.nodes n).pending = [] := by
  have hfirst : sys.Reached init store (trace ++ []) (w.await n [.insert r]) :=
    hrun.next (.missing n r [] hpending hmissing)
  have hsecond := hfirst.next (.missing n' r' [] ((congrArg Node.pending (World.put_of_ne w _ hne)).trans hpending')
    hmissing')
  have hinsert : ((w.await n [.insert r]).await n' [.insert r']).nodes n = ⟨(w.nodes n).state, [.insert r]⟩ := by
    rw [World.await, World.put_of_ne _ _ hne.symm, World.await, World.put_self]
  have hthird := hsecond.next (.insert n r time [] (congrArg Node.pending hinsert))
  have hinsert' : ({ ((w.await n [.insert r]).await n' [.insert r']).await n [] with
      store := w.store ++ [sys.document r time] } : World σ ρ δ).nodes n' = ⟨(w.nodes n').state, [.insert r']⟩ := by
    change (((w.await n [.insert r]).await n' [.insert r']).await n []).nodes n' = _
    rw [World.await, World.put_of_ne _ _ hne, World.await, World.put_self, World.await, World.put_of_ne _ _ hne]
  have hfourth := hthird.next (.insert n' r' time [] (congrArg Node.pending hinsert'))
  rw [List.append_nil, List.append_nil, List.append_assoc] at hfourth
  refine ⟨_, hfourth, List.append_assoc w.store [sys.document r time] [sys.document r' time], ?_⟩
  change (((((w.await n [.insert r]).await n' [.insert r']).await n []).await n' []).nodes n).pending = []
  rw [World.await, World.put_of_ne _ _ hne.symm, World.await, World.put_self]

end view

/-! ### What has been inserted -/

def Event.inserted? : Event ο ρ δ → Option δ
  | .inserted _ _ document => some document
  | _ => none

/-- The document, if process `n` has inserted it and it fits the query. -/
def Event.insertedBy? (sys : System σ ο ρ κ δ) (n : Nat) (q : κ) : Event ο ρ δ → Option δ
  | .inserted n' _ document => if n' = n ∧ sys.fits q document = true then some document else none
  | _ => none

/-- The request whose search by process `n` failed, if it was this query. -/
def Event.lostBy? [DecidableEq κ] (sys : System σ ο ρ κ δ) (n : Nat) (q : κ) : Event ο ρ δ → Option ρ
  | .lost n' r => if n' = n ∧ sys.query r = q then some r else none
  | _ => none

/-- All documents inserted in a run. -/
def inserted (trace : List (Event ο ρ δ)) : List δ := trace.filterMap Event.inserted?

/-- The documents for a query that one process has inserted. -/
def insertedBy (sys : System σ ο ρ κ δ) (n : Nat) (q : κ) (trace : List (Event ο ρ δ)) : List δ :=
  trace.filterMap (Event.insertedBy? sys n q)

/-- The searches of one process with a query that failed. -/
def lostBy [DecidableEq κ] (sys : System σ ο ρ κ δ) (n : Nat) (q : κ) (trace : List (Event ο ρ δ)) : List ρ :=
  trace.filterMap (Event.lostBy? sys n q)

/-- Every request asks for the document that it would insert, and for that of no other query. -/
structure System.Exact (sys : System σ ο ρ κ δ) : Prop where
  own : ∀ r time, sys.fits (sys.query r) (sys.document r time) = true
  apart : ∀ r r' time, sys.fits (sys.query r) (sys.document r' time) = true → sys.query r = sys.query r'

section served

variable {sys : System σ ο ρ κ δ} {store : List δ} {trace shown : List (Event ο ρ δ)} {w : World σ ρ δ}
  {n : Nat}

theorem inserted_append (trace shown : List (Event ο ρ δ)) :
    inserted (trace ++ shown) = inserted trace ++ inserted shown := List.filterMap_append

theorem insertedBy_append (sys : System σ ο ρ κ δ) (n : Nat) (q : κ) (trace shown : List (Event ο ρ δ)) :
    insertedBy sys n q (trace ++ shown) = insertedBy sys n q trace ++ insertedBy sys n q shown :=
  List.filterMap_append

/-- What one process has inserted is in the store. -/
theorem insertedBy_subset (sys : System σ ο ρ κ δ) (n : Nat) (q : κ) (trace : List (Event ο ρ δ)) :
    ∀ document ∈ insertedBy sys n q trace, document ∈ inserted trace ∧ sys.fits q document = true := by
  intro document hmem
  obtain ⟨e, he, hby⟩ := List.mem_filterMap.mp hmem
  cases e with
  | inserted n' r' document' =>
      obtain ⟨⟨-, hfits⟩, heq⟩ := Option.ite_none_right_eq_some.mp hby
      cases heq
      exact ⟨List.mem_filterMap.mpr ⟨_, he, rfl⟩, hfits⟩
  | process | lost | failed => cases hby

/-- What a process asked for is still to come, or there, or could not be inserted. -/
def Served (sys : System σ ο ρ κ δ) (trace : List (Event ο ρ δ)) (w : World σ ρ δ) : Prop :=
  ∀ n o r, .process n o ∈ trace → sys.request? n o = some r →
    (.find r ∈ (w.nodes n).pending ∨ .insert r ∈ (w.nodes n).pending) ∨ .failed n r ∈ trace ∨
      sys.has w.store r = true

/-- The first call of process `n` is over, and what it was about is settled. -/
theorem Served.settles (h : Served sys trace w) {call : Call ρ} {rest : List (Call ρ)} {w' : World σ ρ δ}
    (hpending : (w.nodes n).pending = call :: rest) (hrest : ∀ call ∈ rest, call ∈ (w'.nodes n).pending)
    (hother : ∀ n', n' ≠ n → w'.nodes n' = w.nodes n') (hshown : ∀ n o, .process n o ∉ shown)
    (hstore : ∀ document ∈ w.store, document ∈ w'.store)
    (hsettled : ∀ r, call = .find r ∨ call = .insert r →
      (.find r ∈ (w'.nodes n).pending ∨ .insert r ∈ (w'.nodes n).pending) ∨ .failed n r ∈ shown ∨
        sys.has w'.store r = true) :
    Served sys (trace ++ shown) w' := by
  intro n' o r hmem hrequest
  have hpast : .process n' o ∈ trace := (List.mem_append.mp hmem).resolve_right (hshown n' o)
  rcases h n' o r hpast hrequest with hwaiting | hfailed | hfits
  · by_cases hn : n' = n
    · subst hn
      rw [hpending] at hwaiting
      -- it is the call that is over, or it goes on waiting
      have hcall : (call = .find r ∨ call = .insert r) ∨
          .find r ∈ (w'.nodes n').pending ∨ .insert r ∈ (w'.nodes n').pending := by
        rcases hwaiting with hfind | hinsert
        · exact (List.mem_cons.mp hfind).imp (fun heq => .inl heq.symm) fun hmem => .inl (hrest _ hmem)
        · exact (List.mem_cons.mp hinsert).imp (fun heq => .inr heq.symm) fun hmem => .inr (hrest _ hmem)
      rcases hcall with hover | hon
      · rcases hsettled r hover with hwaits | hfailed | hfits
        · exact .inl hwaits
        · exact .inr (.inl (List.mem_append_right _ hfailed))
        · exact .inr (.inr hfits)
      · exact .inl hon
    · rw [← hother n' hn] at hwaiting
      exact .inl hwaiting
  · exact .inr (.inl (List.mem_append_left _ hfailed))
  · obtain ⟨document, hdocument, hfit⟩ := List.any_eq_true.mp hfits
    exact .inr (.inr (List.any_eq_true.mpr ⟨document, hstore document hdocument, hfit⟩))

theorem Served.step (hexact : sys.Exact) (h : Served sys trace w) {w' : World σ ρ δ}
    (hstep : sys.Step w shown w') : Served sys (trace ++ shown) w' := by
  cases hstep with
  | process n hidle hprocess =>
      rename_i shown s
      intro n' o r hmem hrequest
      rcases List.mem_append.mp hmem with hpast | hnow
      · rcases h n' o r hpast hrequest with hwaiting | hfailed | hfits
        · left
          by_cases hn : n' = n
          · rw [hn, hidle] at hwaiting
            exact (hwaiting.elim List.not_mem_nil List.not_mem_nil).elim
          · rwa [World.put_of_ne w _ hn]
        · exact .inr (.inl (List.mem_append_left _ hfailed))
        · exact .inr (.inr hfits)
      · obtain ⟨o', ho', heq⟩ := List.mem_map.mp hnow
        cases heq
        left
        left
        rw [World.put_self]
        exact List.mem_map.mpr ⟨r, List.mem_filterMap.mpr ⟨o, ho', hrequest⟩, rfl⟩
  | found n r rest hpending hfound =>
      refine h.settles hpending (fun call hcall => ?_) (fun n' hne => World.put_of_ne w _ hne)
        (fun _ _ => List.not_mem_nil) (fun _ hmem => hmem) fun r' hr' => ?_
      · rw [World.await, World.put_self]
        exact hcall
      · rcases hr' with heq | heq <;> cases heq
        exact .inr (.inr hfound)
  | missing n r rest hpending hmissing =>
      refine h.settles hpending (fun call hcall => ?_) (fun n' hne => World.put_of_ne w _ hne)
        (fun _ _ => List.not_mem_nil) (fun _ hmem => hmem) fun r' hr' => ?_
      · rw [World.await, World.put_self]
        exact List.mem_cons_of_mem _ hcall
      · rcases hr' with heq | heq <;> cases heq
        left
        right
        rw [World.await, World.put_self]
        exact List.mem_cons_self
  | lost n r rest hpending =>
      refine h.settles hpending (fun call hcall => ?_) (fun n' hne => World.put_of_ne w _ hne)
        (fun n' o hmem => ?_) (fun _ hmem => hmem) fun r' hr' => ?_
      · rw [World.await, World.put_self]
        exact List.mem_cons_of_mem _ hcall
      · cases List.mem_singleton.mp hmem
      · rcases hr' with heq | heq <;> cases heq
        left
        right
        rw [World.await, World.put_self]
        exact List.mem_cons_self
  | insert n r time rest hpending =>
      refine h.settles hpending
        (fun call hcall => ?_) (fun n' hne => World.put_of_ne w _ hne) (fun n' o hmem => ?_)
        (fun _ hmem => List.mem_append_left _ hmem) fun r' hr' => ?_
      · change call ∈ ((w.await n rest).nodes n).pending
        rw [World.await, World.put_self]
        exact hcall
      · cases List.mem_singleton.mp hmem
      · rcases hr' with heq | heq <;> cases heq
        refine .inr (.inr (List.any_eq_true.mpr ⟨_, List.mem_append_right _ List.mem_cons_self, ?_⟩))
        exact hexact.own r time
  | fail n r rest hpending =>
      refine h.settles hpending (fun call hcall => ?_) (fun n' hne => World.put_of_ne w _ hne)
        (fun n' o hmem => ?_) (fun _ hmem => hmem) fun r' hr' => ?_
      · rw [World.await, World.put_self]
        exact hcall
      · cases List.mem_singleton.mp hmem
      · rcases hr' with heq | heq <;> cases heq
        exact .inr (.inl List.mem_cons_self)

theorem served_of_run (hexact : sys.Exact) {init : Nat → σ → Prop} (hrun : sys.Reached init store trace w) :
    Served sys trace w :=
  hrun.invariant (Served sys) (fun _ _ _ _ _ hmem => (List.not_mem_nil hmem).elim) fun _ _ _ _ h hstep =>
    h.step hexact hstep

/-- A process has asked for what the call is about. -/
def Asked (sys : System σ ο ρ κ δ) (trace : List (Event ο ρ δ)) (n : Nat) (r : ρ) : Prop :=
  ∃ o, .process n o ∈ trace ∧ sys.request? n o = some r

/-- Nobody looks for anything, and nothing is inserted, that was not asked for. -/
structure Caused (sys : System σ ο ρ κ δ) (trace : List (Event ο ρ δ)) (w : World σ ρ δ) : Prop where
  waiting : ∀ n r, .find r ∈ (w.nodes n).pending ∨ .insert r ∈ (w.nodes n).pending → Asked sys trace n r
  inserted : ∀ n r document, .inserted n r document ∈ trace →
    Asked sys trace n r ∧ ∃ time, document = sys.document r time

theorem Asked.append {r : ρ} (h : Asked sys trace n r) (shown : List (Event ο ρ δ)) :
    Asked sys (trace ++ shown) n r := by
  obtain ⟨o, hmem, hrequest⟩ := h
  exact ⟨o, List.mem_append_left _ hmem, hrequest⟩

/-- The calls of one process were asked for, and so was what is inserted. -/
theorem Caused.goes_on (h : Caused sys trace w) {node : Node σ ρ}
    (hcalls : ∀ r, .find r ∈ node.pending ∨ .insert r ∈ node.pending → Asked sys (trace ++ shown) n r)
    (hshown : ∀ n r document, .inserted n r document ∈ shown →
      Asked sys trace n r ∧ ∃ time, document = sys.document r time)
    {w' : World σ ρ δ} (hnodes : w'.nodes = (w.put n node).nodes) : Caused sys (trace ++ shown) w' where
  waiting := by
    intro n' r hwaiting
    rw [hnodes] at hwaiting
    by_cases hn : n' = n
    · subst hn
      rw [World.put_self] at hwaiting
      exact hcalls r hwaiting
    · rw [World.put_of_ne w node hn] at hwaiting
      exact (h.waiting n' r hwaiting).append shown
  inserted := by
    intro n' r document hmem
    rcases List.mem_append.mp hmem with hpast | hnow
    · exact (h.inserted n' r document hpast).imp_left fun hasked => hasked.append shown
    · exact (hshown n' r document hnow).imp_left fun hasked => hasked.append shown

theorem Caused.step (h : Caused sys trace w) {w' : World σ ρ δ} (hstep : sys.Step w shown w') :
    Caused sys (trace ++ shown) w' := by
  have hrest : ∀ {n : Nat} {call : Call ρ} {rest : List (Call ρ)}, (w.nodes n).pending = call :: rest →
      ∀ r, .find r ∈ rest ∨ .insert r ∈ rest → Asked sys trace n r := by
    intro n call rest hpending r hcall
    refine h.waiting n r ?_
    rw [hpending]
    exact hcall.imp (List.mem_cons_of_mem call) (List.mem_cons_of_mem call)
  have hfirst : ∀ {n : Nat} {r : ρ} {call : Call ρ} {rest : List (Call ρ)},
      (w.nodes n).pending = call :: rest → call = .find r ∨ call = .insert r → Asked sys trace n r := by
    intro n r call rest hpending hcall
    refine h.waiting n r ?_
    rw [hpending]
    rcases hcall with rfl | rfl
    · exact .inl List.mem_cons_self
    · exact .inr List.mem_cons_self
  cases hstep with
  | process n hidle hprocess =>
      rename_i shown s
      refine h.goes_on (n := n) (fun r hcall => ?_) (fun n' r document hmem => ?_) rfl
      · rcases hcall with hfind | hinsert
        · obtain ⟨r', hr', heq⟩ := List.mem_map.mp hfind
          cases heq
          obtain ⟨o, ho, hrequest⟩ := List.mem_filterMap.mp hr'
          exact ⟨o, List.mem_append_right _ (List.mem_map.mpr ⟨o, ho, rfl⟩), hrequest⟩
        · obtain ⟨r', -, heq⟩ := List.mem_map.mp hinsert
          cases heq
      · obtain ⟨o, -, heq⟩ := List.mem_map.mp hmem
        cases heq
  | found n r rest hpending =>
      exact h.goes_on (fun r' hcall => (hrest hpending r' hcall).append _)
        (fun _ _ _ hmem => (List.not_mem_nil hmem).elim) rfl
  | missing n r rest hpending | lost n r rest hpending =>
      refine h.goes_on (n := n) (fun r' hcall => ?_) (fun n' r' document hmem => by simp at hmem) rfl
      rcases hcall with hfind | hinsert
      · have hmem := (List.mem_cons.mp hfind).resolve_left nofun
        exact (hrest hpending r' (.inl hmem)).append _
      · rcases List.mem_cons.mp hinsert with heq | hmem
        · cases heq
          exact (hfirst hpending (.inl rfl)).append _
        · exact (hrest hpending r' (.inr hmem)).append _
  | insert n r time rest hpending =>
      refine h.goes_on (n := n) (fun r' hcall => (hrest hpending r' hcall).append _)
        (fun n' r' document hmem => ?_) rfl
      cases List.mem_singleton.mp hmem
      exact ⟨hfirst hpending (.inr rfl), time, rfl⟩
  | fail n r rest hpending =>
      exact h.goes_on (fun r' hcall => (hrest hpending r' hcall).append _)
        (fun n' r' document hmem => by simp at hmem) rfl

theorem caused_of_run {init : Nat → σ → Prop} (hrun : sys.Reached init store trace w) : Caused sys trace w := by
  refine hrun.invariant (Caused sys) (fun w hstart => ⟨fun n r hcall => ?_, fun _ _ _ hmem => ?_⟩)
    fun _ _ _ _ h hstep => h.step hstep
  · rw [(hstart.2 n).2] at hcall
    exact (hcall.elim List.not_mem_nil List.not_mem_nil).elim
  · exact (List.not_mem_nil hmem).elim

end served

/-- How many documents for a request one process may insert: one for each search that failed, and one
if there was none at the start. -/
def room [DecidableEq κ] (sys : System σ ο ρ κ δ) (store : List δ) (n : Nat) (r : ρ)
    (trace : List (Event ο ρ δ)) : Nat :=
  (lostBy sys n (sys.query r) trace).length + if sys.has store r then 0 else 1

/-- What holds in every reachable state. -/
structure Sound [DecidableEq κ] (sys : System σ ο ρ κ δ) (store : List δ) (trace : List (Event ο ρ δ))
    (w : World σ ρ δ) : Prop where
  store_eq : w.store = store ++ inserted trace
  /-- Only the first call can be an insertion. -/
  tail : ∀ n, ∀ call ∈ (w.nodes n).pending.tail, ∃ r, call = .find r
  bounded : ∀ n r, (insertedBy sys n (sys.query r) trace).length ≤ room sys store n r trace
  /-- A process about to insert has room for the document. -/
  pending : ∀ n r rest, (w.nodes n).pending = .insert r :: rest →
    (insertedBy sys n (sys.query r) trace).length < room sys store n r trace

section sound

variable [DecidableEq κ] {sys : System σ ο ρ κ δ} {store : List δ} {trace shown : List (Event ο ρ δ)}
  {w : World σ ρ δ} {n : Nat} {r : ρ}

/-- There is never less room than there was. -/
theorem room_append (sys : System σ ο ρ κ δ) (store : List δ) (n : Nat) (r : ρ)
    (trace shown : List (Event ο ρ δ)) :
    room sys store n r (trace ++ shown) =
      room sys store n r trace + (lostBy sys n (sys.query r) shown).length := by
  have hlost : lostBy sys n (sys.query r) (trace ++ shown) =
      lostBy sys n (sys.query r) trace ++ lostBy sys n (sys.query r) shown := List.filterMap_append
  rw [room, room, hlost, List.length_append]
  omega

/-- Where no document fits, there is room for one. -/
theorem Sound.free (h : Sound sys store trace w) (hmissing : sys.has w.store r = false) (n : Nat) :
    (insertedBy sys n (sys.query r) trace).length < room sys store n r trace := by
  rw [System.has, h.store_eq, List.any_append, Bool.or_eq_false_iff] at hmissing
  have hnone : insertedBy sys n (sys.query r) trace = [] := by
    rw [List.eq_nil_iff_forall_not_mem]
    intro document hmem
    obtain ⟨hinserted, hfits⟩ := insertedBy_subset sys n (sys.query r) trace document hmem
    exact List.any_eq_false.mp hmissing.2 document hinserted hfits
  have hstart : sys.has store r = false := hmissing.1
  rw [hnone, room, hstart, List.length_nil]
  exact Nat.succ_pos _

theorem sound_start {init : Nat → σ → Prop} (h : System.Start init store w) : Sound sys store [] w where
  store_eq := by
    rw [h.1]
    exact (List.append_nil store).symm
  tail := by
    intro n call hcall
    rw [(h.2 n).2] at hcall
    exact (List.not_mem_nil hcall).elim
  bounded := fun _ _ => Nat.zero_le _
  pending := by
    intro n r rest hpending
    cases (h.2 n).2.symm.trans hpending

/-- A process waits for other calls, and nothing is inserted. -/
theorem Sound.waits (h : Sound sys store trace w) {node : Node σ ρ} (hshown : inserted shown = [])
    (htail : ∀ call ∈ node.pending.tail, ∃ r, call = .find r)
    (hhead : ∀ r rest, node.pending = .insert r :: rest →
      (insertedBy sys n (sys.query r) trace).length < room sys store n r (trace ++ shown)) :
    Sound sys store (trace ++ shown) (w.put n node) := by
  have hsame : ∀ n q, insertedBy sys n q (trace ++ shown) = insertedBy sys n q trace := by
    intro n q
    have hnone : insertedBy sys n q shown = [] := by
      rw [List.eq_nil_iff_forall_not_mem]
      intro document hmem
      have hinserted := (insertedBy_subset sys n q shown document hmem).1
      rw [hshown] at hinserted
      exact List.not_mem_nil hinserted
    rw [insertedBy_append, hnone, List.append_nil]
  refine ⟨?_, fun n' => ?_, fun n' r => ?_, fun n' r rest hpending => ?_⟩
  · rw [inserted_append, hshown, List.append_nil]
    exact h.store_eq
  · by_cases hn : n' = n
    · rw [hn, World.put_self]
      exact htail
    · rw [World.put_of_ne w node hn]
      exact h.tail n'
  · rw [hsame, room_append]
    exact Nat.le_add_right_of_le (h.bounded n' r)
  · rw [hsame]
    by_cases hn : n' = n
    · subst hn
      rw [World.put_self] at hpending
      exact hhead r rest hpending
    · rw [World.put_of_ne w node hn] at hpending
      rw [room_append]
      exact Nat.lt_add_right _ (h.pending n' r rest hpending)

/-- The calls behind the first are searches. -/
theorem Sound.rest (h : Sound sys store trace w) {call : Call ρ} {rest : List (Call ρ)}
    (hpending : (w.nodes n).pending = call :: rest) :
    (∀ call ∈ rest, ∃ r, call = .find r) ∧ ∀ r more, rest ≠ .insert r :: more := by
  have htail := h.tail n
  rw [hpending, List.tail_cons] at htail
  refine ⟨htail, fun r more heq => ?_⟩
  rw [heq] at htail
  obtain ⟨r', hr'⟩ := htail _ List.mem_cons_self
  cases hr'

/-- The first call is over and nothing is to be inserted. -/
theorem Sound.goes_on (h : Sound sys store trace w) {call : Call ρ} {rest : List (Call ρ)}
    (hpending : (w.nodes n).pending = call :: rest) (hshown : inserted shown = []) :
    Sound sys store (trace ++ shown) (w.await n rest) := by
  obtain ⟨htail, hhead⟩ := h.rest hpending
  exact h.waits hshown (fun call hcall => htail call (List.mem_of_mem_tail hcall)) fun r more heq =>
    (hhead r more heq).elim

/-- A search has found nothing, and a document is to be inserted. -/
theorem Sound.turns (h : Sound sys store trace w) {rest : List (Call ρ)}
    (hpending : (w.nodes n).pending = .find r :: rest) (hshown : inserted shown = [])
    (hroom : (insertedBy sys n (sys.query r) trace).length < room sys store n r (trace ++ shown)) :
    Sound sys store (trace ++ shown) (w.await n (.insert r :: rest)) := by
  refine h.waits hshown (h.rest hpending).1 fun r' more heq => ?_
  cases heq
  exact hroom

/-- The process that is about to insert does. -/
theorem Sound.insert (hexact : sys.Exact) (h : Sound sys store trace w) {time : Int} {rest : List (Call ρ)}
    (hpending : (w.nodes n).pending = .insert r :: rest) :
    Sound sys store (trace ++ [.inserted n r (sys.document r time)])
      { w.await n rest with store := w.store ++ [sys.document r time] } := by
  obtain ⟨htail, hhead⟩ := h.rest hpending
  have hone : ∀ n' q, insertedBy sys n' q [.inserted n r (sys.document r time)] =
      if n = n' ∧ sys.fits q (sys.document r time) = true then [sys.document r time] else [] := by
    intro n' q
    rw [insertedBy, List.filterMap_cons, Event.insertedBy?]
    by_cases hby : n = n' ∧ sys.fits q (sys.document r time) = true
    · rw [if_pos hby, if_pos hby]
      rfl
    · rw [if_neg hby, if_neg hby]
      rfl
  have hroom : ∀ n' r', room sys store n' r' (trace ++ [.inserted n r (sys.document r time)]) =
      room sys store n' r' trace := fun n' r' => room_append sys store n' r' trace _
  refine ⟨?_, fun n' => ?_, fun n' r' => ?_, fun n' r' more hpending' => ?_⟩
  · rw [inserted_append, ← List.append_assoc, ← h.store_eq]
    rfl
  · change ∀ call ∈ ((w.await n rest).nodes n').pending.tail, ∃ r, call = .find r
    by_cases hn : n' = n
    · rw [hn, World.await, World.put_self]
      exact fun call hcall => htail call (List.mem_of_mem_tail hcall)
    · rw [World.await, World.put_of_ne w _ hn]
      exact h.tail n'
  · rw [insertedBy_append, hone, hroom]
    split
    · rename_i hby
      -- the document counts for this request only if it has the query of `r`
      obtain ⟨rfl, hfit⟩ := hby
      have hq := hexact.apart r' r time hfit
      have hfree := h.pending n r rest hpending
      have hsame : room sys store n r' trace = room sys store n r trace := by
        unfold room System.has
        rw [hq]
      rw [hq, hsame, List.length_append, List.length_singleton]
      exact hfree
    · rw [List.append_nil]
      exact h.bounded n' r'
  · change ((w.await n rest).nodes n').pending = .insert r' :: more at hpending'
    by_cases hn : n' = n
    · rw [hn, World.await, World.put_self] at hpending'
      exact (hhead r' more hpending').elim
    · rw [World.await, World.put_of_ne w _ hn] at hpending'
      rw [insertedBy_append, hone, hroom, if_neg fun hby => hn hby.1.symm, List.append_nil]
      exact h.pending n' r' more hpending'

theorem inserted_process (n : Nat) (shown : List ο) :
    inserted (shown.map (Event.process (ρ := ρ) (δ := δ) n)) = [] := by
  rw [inserted, List.filterMap_map, List.filterMap_eq_nil_iff]
  exact fun _ _ => rfl

theorem lostBy_self (n : Nat) (r : ρ) :
    (lostBy (δ := δ) (ο := ο) sys n (sys.query r) [.lost n r]).length = 1 := by
  have hone : lostBy sys n (sys.query r) [.lost n r] = [r] := by
    rw [lostBy, List.filterMap_cons, Event.lostBy?, if_pos ⟨rfl, rfl⟩]
    rfl
  rw [hone]
  rfl

theorem Sound.step (hexact : sys.Exact) (h : Sound sys store trace w) {w' : World σ ρ δ}
    (hstep : sys.Step w shown w') : Sound sys store (trace ++ shown) w' := by
  cases hstep with
  | process n hidle hprocess =>
      refine h.waits (inserted_process n _) (fun call hcall => ?_) fun r rest hpending => ?_
      · obtain ⟨r, -, rfl⟩ := List.mem_map.mp (List.mem_of_mem_tail hcall)
        exact ⟨r, rfl⟩
      · obtain ⟨r', more, -, hr', -⟩ := List.map_eq_cons_iff.mp hpending
        cases hr'
  | found n r rest hpending hfound => exact h.goes_on hpending rfl
  | missing n r rest hpending hmissing =>
      refine h.turns hpending rfl ?_
      rw [List.append_nil]
      exact h.free hmissing n
  | lost n r rest hpending =>
      refine h.turns hpending rfl ?_
      rw [room_append, lostBy_self]
      exact Nat.lt_succ_of_le (h.bounded n r)
  | insert n r time rest hpending => exact h.insert hexact hpending
  | fail n r rest hpending => exact h.goes_on hpending rfl

theorem sound_of_run (hexact : sys.Exact) {init : Nat → σ → Prop} (hrun : sys.Reached init store trace w) :
    Sound sys store trace w :=
  hrun.invariant (Sound sys store) (fun _ => sound_start) fun _ _ _ _ h hstep => h.step hexact hstep

end sound

end Upsert

end Theory
