import Mathlib.Data.List.Infix
import LinkedonPush.Theory.Run

/-!
# Computations suspended on reads

A computation that consumes a stream through a blocking read is a tree: it is finished, it has hit a
failed assertion, or it waits for a read of at most `size` elements and goes on with whatever the
read gave. The tree is the same object whether one caller runs it to the end over a whole stream
(`run`) or a scheduler resumes it read by read, so one specification (`Ensures`) serves both.
-/

namespace Theory

/-- What one read gave: an error of the source, or the next elements of the stream. -/
abbrev Delivery (ε β : Type) := Except ε (List β)

/-- A read of at most `size` elements gives an error or between one and `size` elements. -/
def Delivery.Allowed {ε β : Type} (size : Nat) : Delivery ε β → Prop
  | .error _ => True
  | .ok piece => piece ≠ [] ∧ piece.length ≤ size

instance {ε β : Type} (size : Nat) (d : Delivery ε β) : Decidable (d.Allowed size) :=
  match d with
  | .error _ => isTrue trivial
  | .ok [] => isFalse fun h => h.1 rfl
  | .ok (b :: piece) =>
      decidable_of_iff ((b :: piece).length ≤ size) ⟨fun h => ⟨List.cons_ne_nil _ _, h⟩, fun h => h.2⟩

/-- The elements a history of reads delivered, in order. -/
def received {ε β : Type} : List (Delivery ε β) → List β
  | [] => []
  | .error _ :: history => received history
  | .ok piece :: history => piece ++ received history

/-- Some read of the history failed. -/
def Failed {ε β : Type} (history : List (Delivery ε β)) : Prop :=
  ∃ e, Except.error e ∈ history

section received

variable {ε β : Type}

@[simp] theorem received_nil : received ([] : List (Delivery ε β)) = [] := rfl

@[simp] theorem received_append (first second : List (Delivery ε β)) :
    received (first ++ second) = received first ++ received second := by
  induction first with
  | nil => rfl
  | cons d history ih =>
      cases d with
      | error e => simpa only [List.cons_append, received] using ih
      | ok piece => simp only [List.cons_append, received, ih, List.append_assoc]

@[simp] theorem received_error (e : ε) : received [(.error e : Delivery ε β)] = [] := rfl

@[simp] theorem received_ok (piece : List β) : received [(.ok piece : Delivery ε β)] = piece :=
  List.append_nil piece

theorem not_failed_nil : ¬ Failed ([] : List (Delivery ε β)) := by
  rintro ⟨e, he⟩
  exact List.not_mem_nil he

@[simp] theorem failed_append_ok {history : List (Delivery ε β)} {piece : List β} :
    Failed (history ++ [.ok piece]) ↔ Failed history := by
  simp [Failed]

theorem failed_append {first second : List (Delivery ε β)} :
    Failed (first ++ second) ↔ Failed first ∨ Failed second := by
  simp only [Failed, List.mem_append, exists_or]

end received

inductive Reading (ε β α : Type) where
  | done (result : α)
  /-- An assertion of the computation failed. -/
  | abort
  | need (size : Nat) (resume : Delivery ε β → Reading ε β α)

namespace Reading

variable {ε β α γ : Type}

def bind : Reading ε β α → (α → Reading ε β γ) → Reading ε β γ
  | done result, next => next result
  | abort, _ => abort
  | need size resume, next => need size fun d => (resume d).bind next

instance : Monad (Reading ε β) where
  pure := done
  bind := bind

/-- Stop the computation unless the condition holds. -/
def assert (condition : Prop) [Decidable condition] : Reading ε β Unit :=
  if condition then done () else abort

@[simp] theorem pure_eq_done (result : α) : (pure result : Reading ε β α) = done result := rfl

@[simp] theorem done_bind (result : α) (next : α → Reading ε β γ) :
    (done result >>= next) = next result := rfl

theorem bind_assoc {δ : Type} (r : Reading ε β α) (f : α → Reading ε β γ) (g : γ → Reading ε β δ) :
    r >>= f >>= g = r >>= fun result => f result >>= g := by
  induction r with
  | done result => rfl
  | abort => rfl
  | need size resume ih =>
      change need size _ = need size _
      congr 1
      funext d
      exact ih d

@[simp] theorem assert_pos {condition : Prop} [Decidable condition] (h : condition) :
    (assert condition : Reading ε β Unit) = done () := if_pos h

/-! ### What a computation ensures

The postcondition sees the result together with the history of reads. The environment picks every
read, within its contract; a failed assertion or a read of no elements is never accepted. -/

/-- Every way the remaining reads can go leads to a result that satisfies the postcondition. -/
def Ensures (post : α → List (Delivery ε β) → Prop) :
    Reading ε β α → List (Delivery ε β) → Prop
  | done result, history => post result history
  | abort, _ => False
  | need size resume, history =>
      0 < size ∧ ∀ d : Delivery ε β, d.Allowed size → Ensures post (resume d) (history ++ [d])

@[simp] theorem ensures_done {post : α → List (Delivery ε β) → Prop} {result : α}
    {history : List (Delivery ε β)} :
    Ensures post (done result) history ↔ post result history := Iff.rfl

theorem Ensures.size_pos {post : α → List (Delivery ε β) → Prop} {size : Nat}
    {resume : Delivery ε β → Reading ε β α} {history : List (Delivery ε β)}
    (h : Ensures post (need size resume) history) : 0 < size := h.1

/-- One read takes a specified computation to a specified computation. -/
theorem Ensures.resume {post : α → List (Delivery ε β) → Prop} {size : Nat}
    {resume : Delivery ε β → Reading ε β α} {history : List (Delivery ε β)}
    (h : Ensures post (need size resume) history) {d : Delivery ε β} (hd : d.Allowed size) :
    Ensures post (resume d) (history ++ [d]) := h.2 d hd

theorem Ensures.mono {post weaker : α → List (Delivery ε β) → Prop} {r : Reading ε β α}
    {history : List (Delivery ε β)} (h : Ensures post r history)
    (himp : ∀ result more, post result (history ++ more) → weaker result (history ++ more)) :
    Ensures weaker r history := by
  induction r generalizing history with
  | done result =>
      have hpost : post result (history ++ []) := by simpa using h
      simpa using himp result [] hpost
  | abort => exact h
  | need size resume ih =>
      refine ⟨h.1, fun d hd => ih d (h.2 d hd) fun result more hpost => ?_⟩
      rw [List.append_assoc] at hpost ⊢
      exact himp result _ hpost

/-- Sequencing: the first part has to end where the second part's specification starts. -/
theorem ensures_bind {post : γ → List (Delivery ε β) → Prop} {r : Reading ε β α}
    {next : α → Reading ε β γ} {history : List (Delivery ε β)}
    (h : Ensures (fun result history => Ensures post (next result) history) r history) :
    Ensures post (r >>= next) history := by
  induction r generalizing history with
  | done result => exact h
  | abort => exact h
  | need size resume ih => exact ⟨h.1, fun d hd => ih d (h.2 d hd)⟩

/-- A specification from the empty history holds behind any other history, of what happened since. -/
theorem Ensures.after {post : α → List (Delivery ε β) → Prop} {r : Reading ε β α}
    {since : List (Delivery ε β)} (h : Ensures post r since) (history : List (Delivery ε β)) :
    Ensures (fun result full => ∃ more, full = history ++ more ∧ post result more) r
      (history ++ since) := by
  induction r generalizing since with
  | done result => exact ⟨since, rfl, h⟩
  | abort => exact h
  | need size resume ih =>
      refine ⟨h.1, fun d hd => ?_⟩
      rw [List.append_assoc]
      exact ih d (h.2 d hd)

/-- The computation comes to the result through the reads. -/
inductive Returns : Reading ε β α → List (Delivery ε β) → α → Prop where
  | done (result : α) : Returns (done result) [] result
  | need {size : Nat} {resume : Delivery ε β → Reading ε β α} {d : Delivery ε β} {reads : List (Delivery ε β)}
      {result : α} (hd : d.Allowed size) (h : Returns (resume d) reads result) :
      Returns (need size resume) (d :: reads) result

/-- What a computation ensures holds of whatever it returns. -/
theorem Ensures.of_returns {post : α → List (Delivery ε β) → Prop} {r : Reading ε β α}
    {history reads : List (Delivery ε β)} {result : α} (h : Ensures post r history)
    (hreturns : Returns r reads result) : post result (history ++ reads) := by
  induction hreturns generalizing history with
  | done result =>
      rw [List.append_nil]
      exact h
  | need hd _ ih =>
      have hpost := ih (h.resume hd)
      rwa [List.append_assoc] at hpost

/-! ### What a computation yields

A property of the results alone, whatever the reads give. -/

/-- Every result the computation can come to satisfies the property. -/
def Yields (post : α → Prop) : Reading ε β α → Prop
  | done result => post result
  | abort => True
  | need _ resume => ∀ d, Yields post (resume d)

@[simp] theorem yields_done {post : α → Prop} {result : α} :
    Yields post (done result : Reading ε β α) ↔ post result := Iff.rfl

@[simp] theorem yields_abort {post : α → Prop} : Yields post (abort : Reading ε β α) := trivial

theorem yields_bind {post : γ → Prop} {r : Reading ε β α} {next : α → Reading ε β γ}
    (h : Yields (fun result => Yields post (next result)) r) : Yields post (r >>= next) := by
  induction r with
  | done result => exact h
  | abort => trivial
  | need size resume ih => exact fun d => ih d (h d)

theorem Yields.mono {post weaker : α → Prop} {r : Reading ε β α} (h : Yields post r)
    (himp : ∀ result, post result → weaker result) : Yields weaker r := by
  induction r with
  | done result => exact himp result h
  | abort => trivial
  | need size resume ih => exact fun d => ih d (h d)

/-- The second part alone decides, if it does so from every result of the first. -/
theorem yields_bind_of_forall {post : γ → Prop} {r : Reading ε β α} {next : α → Reading ε β γ}
    (h : ∀ result, Yields post (next result)) : Yields post (r >>= next) := by
  refine yields_bind ?_
  induction r with
  | done result => exact h result
  | abort => trivial
  | need size resume ih => exact fun d => ih d

/-! ### Running over a whole stream -/

/-- A stream together with the sizes in which its reads arrive. -/
structure Feed (β : Type) where
  rest : List β
  sizes : Nat → Nat

/-- The elements the next read of at most `size` delivers: the scheduled number, kept between one
and `size`. -/
def Feed.piece (feed : Feed β) (size : Nat) : List β :=
  feed.rest.take (min size (max 1 (feed.sizes 0)))

def Feed.advance (feed : Feed β) (size : Nat) : Feed β where
  rest := feed.rest.drop (min size (max 1 (feed.sizes 0)))
  sizes := fun read => feed.sizes (read + 1)

theorem Feed.piece_append_rest (feed : Feed β) (size : Nat) :
    feed.piece size ++ (feed.advance size).rest = feed.rest :=
  List.take_append_drop _ _

theorem Feed.piece_allowed {feed : Feed β} {size : Nat} (hsize : 0 < size) (hrest : feed.rest ≠ []) :
    Delivery.Allowed size (.ok (feed.piece size) : Delivery ε β) := by
  have hlength : 0 < feed.rest.length := List.length_pos_iff.mpr hrest
  constructor
  · intro hnil
    have hzero := congrArg List.length hnil
    simp only [Feed.piece, List.length_take, List.length_nil] at hzero
    omega
  · simp only [Feed.piece, List.length_take]
    omega

/-- Run over the stream; a read of the exhausted stream fails with `eof`. `none` is a failed
assertion. -/
def run (eof : ε) : Reading ε β α → Feed β → Option (α × Feed β)
  | done result, feed => some (result, feed)
  | abort, _ => none
  | need size resume, feed =>
      match feed.rest with
      | [] => run eof (resume (.error eof)) feed
      | _ :: _ => run eof (resume (.ok (feed.piece size))) (feed.advance size)

/-- A specified computation runs to the end over every stream: what it received is what left the
stream, and a read failed only if the stream was exhausted. -/
theorem run_of_ensures {post : α → List (Delivery ε β) → Prop} {r : Reading ε β α}
    {history : List (Delivery ε β)} (h : Ensures post r history) (eof : ε) (feed : Feed β) :
    ∃ result feed' more, run eof r feed = some (result, feed') ∧ post result (history ++ more) ∧
      feed.rest = received more ++ feed'.rest ∧ (Failed more → feed'.rest = []) := by
  induction r generalizing history feed with
  | done result =>
      exact ⟨result, feed, [], rfl, by simpa using h, rfl, fun hfailed => (not_failed_nil hfailed).elim⟩
  | abort => exact h.elim
  | need size resume ih =>
      cases hrest : feed.rest with
      | nil =>
          obtain ⟨result, feed', more, hrun, hpost, hsplit, -⟩ :=
            ih (.error eof) (h.resume trivial) feed
          have hempty : received more ++ feed'.rest = [] := by rw [← hsplit, hrest]
          refine ⟨result, feed', .error eof :: more, ?_, ?_, ?_, fun _ => ?_⟩
          · simpa only [run, hrest] using hrun
          · simpa only [List.append_assoc, List.cons_append, List.nil_append] using hpost
          · simpa only [received] using hempty.symm
          · exact (List.append_eq_nil_iff.mp hempty).2
      | cons b rest =>
          have hne : feed.rest ≠ [] := by rw [hrest]; exact List.cons_ne_nil _ _
          obtain ⟨result, feed', more, hrun, hpost, hsplit, hfail⟩ :=
            ih (.ok (feed.piece size)) (h.resume (Feed.piece_allowed h.size_pos hne))
              (feed.advance size)
          refine ⟨result, feed', .ok (feed.piece size) :: more, ?_, ?_, ?_, fun hfailed => ?_⟩
          · simpa only [run, hrest] using hrun
          · simpa only [List.append_assoc, List.cons_append, List.nil_append] using hpost
          · rw [← hrest, ← feed.piece_append_rest size, hsplit, received, List.append_assoc]
          · obtain ⟨e, he⟩ := hfailed
            rcases List.mem_cons.mp he with heq | hmem
            · cases heq
            · exact hfail ⟨e, hmem⟩

/-- A system that is suspended in a computation at every read can be resumed, over a whole stream,
until the computation is done. -/
theorem driven {σ ο : Type} {step : σ → List ο → σ → Prop} (suspended : σ → Reading ε β α → Prop)
    (hstep : ∀ s size resume, suspended s (need size resume) → ∀ d : Delivery ε β, d.Allowed size →
      ∃ shown s', step s shown s' ∧ suspended s' (resume d))
    {post : α → List (Delivery ε β) → Prop} {r : Reading ε β α} {history : List (Delivery ε β)}
    (h : Ensures post r history) {eof : ε} {feed feed' : Feed β} {result : α}
    (hrun : run eof r feed = some (result, feed')) {s : σ} (hs : suspended s r) :
    ∃ shown s', Run (· = s) step shown s' ∧ suspended s' (done result) := by
  induction r generalizing history feed s with
  | done result' =>
      obtain ⟨rfl, -⟩ := Prod.mk.inj (Option.some.inj hrun)
      exact ⟨[], s, .start rfl, hs⟩
  | abort => exact h.elim
  | need size resume ih =>
      obtain ⟨d, feed₁, hallowed, hrest⟩ : ∃ (d : Delivery ε β) (feed₁ : Feed β), d.Allowed size ∧
          run eof (resume d) feed₁ = some (result, feed') := by
        cases hnil : feed.rest with
        | nil =>
            simp only [run, hnil] at hrun
            exact ⟨.error eof, feed, trivial, hrun⟩
        | cons b rest =>
            have hne : feed.rest ≠ [] := by rw [hnil]; exact List.cons_ne_nil _ _
            simp only [run, hnil] at hrun
            exact ⟨.ok (feed.piece size), feed.advance size, Feed.piece_allowed h.size_pos hne, hrun⟩
      obtain ⟨shown, s₁, hfirst, hs₁⟩ := hstep s size resume hs d hallowed
      obtain ⟨more, s₂, hmore, hs₂⟩ := ih d (h.resume hallowed) hrest hs₁
      exact ⟨shown ++ more, s₂, (Run.single hfirst).append hmore, hs₂⟩

end Reading

end Theory
