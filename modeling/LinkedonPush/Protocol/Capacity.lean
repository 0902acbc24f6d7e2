import LinkedonPush.Protocol.FastBuffer

/-!
# The capacity of the receive buffer

`set_buffer` and `skip`, and the calls that a user of `LPushFastBuffer` makes one after another.
`set_buffer` gives the buffer more memory and does not record it, and `grow` asks for free space as if
no byte of the request were there already.
-/

namespace LinkedonPush

open Theory

def lpMaxSocketBuffer : Int := 262144

namespace LPushFastBuffer

/-- `realloc` keeps the bytes; `behind` is the memory behind them. -/
def setBuffer (b : LPushFastBuffer) (bufferSize : Int) (behind : Bytes) : LPushFastBuffer :=
  let nbResizeBuf := min bufferSize lpMaxSocketBuffer
  if nbResizeBuf ≤ b.nbBuffer then b
  else { b with mem := b.mem.take b.nbBuffer ++ behind }

/-- A negative `size` goes back. -/
def skip (b : LPushFastBuffer) (size : Int) : SocketReading LPushFastBuffer := do
  Reading.assert (size ≤ (b.endp : Int) - b.p)
  Reading.assert (0 ≤ (b.p : Int) + size)
  pure { b with p := ((b.p : Int) + size).toNat }

inductive Call where
  | setBuffer (bufferSize : Int)
  | grow (requiredSize : Int)
  | readSlice (size : Int)
  | skip (size : Int)
deriving DecidableEq

/-- The calls in which no assertion fails. A size below zero does what zero does: `grow` finds it there,
and `read_slice` refuses it. -/
inductive Called : LPushFastBuffer → List Call → LPushFastBuffer → Prop where
  | setBuffer (b : LPushFastBuffer) (bufferSize : Int) (behind : Bytes) :
      Called b [.setBuffer bufferSize] (b.setBuffer bufferSize behind)
  | grow {b b' : LPushFastBuffer} (requiredSize : Int) {reads : List (Delivery SocketError UInt8)} {ret : Int}
      (h : Reading.Returns (b.grow requiredSize.toNat) reads (ret, b')) : Called b [.grow requiredSize] b'
  | readSlice {b b' : LPushFastBuffer} (size : Int) {ptr : Nat}
      (h : Reading.Returns (b.readSlice size.toNat) [] (ptr, b')) : Called b [.readSlice size] b'
  | skip {b b' : LPushFastBuffer} (size : Int) (h : Reading.Returns (b.skip size) [] b') :
      Called b [.skip size] b'

/-- What a user has called on a new buffer, and what it has become. -/
abbrev Used : List Call → LPushFastBuffer → Prop := Run (fun b => ∃ beyond, b = fresh beyond) Called

def Call.enlarge (capacity : Int) : Call → Int
  | .setBuffer bufferSize => max capacity (min bufferSize lpMaxSocketBuffer)
  | _ => capacity

/-- What the buffer was asked to hold. -/
def capacity (calls : List Call) : Int := calls.foldl Call.enlarge lpDefaultRecvBufferSize

/-- Whatever a reader delivers that never fails, `grow` succeeds: the request is there, and begins with
the bytes that were unread. -/
def Serves (b : LPushFastBuffer) (requiredSize : Int) : Prop :=
  Reading.Ensures
    (fun result reads => ¬ Failed reads →
      result.1 = errorSuccess ∧ requiredSize ≤ result.2.data.length ∧ result.2.data = b.data ++ received reads)
    (b.grow requiredSize.toNat) []

section

variable {b b' : LPushFastBuffer} {calls : List Call} {requiredSize : Nat}

/-! ### What `grow` comes to -/

/-- A request that does not fit fails at once: with the overflow, or at the assertion that the unread
bytes do not fill the buffer. -/
theorem grow_of_not_fits (hb : b.WellFormed) (hfits : ¬ b.Fits requiredSize) :
    b.grow requiredSize = .abort ∨ b.grow requiredSize = .done (errorReaderBufferOverflow, b.compact) := by
  have hlength := hb.length_data
  have hp := hb.p_le_endp
  have hend := hb.endp_le_nbBuffer
  obtain ⟨hmissing, hroom⟩ := not_or.mp hfits
  have hcompact := compact_endp b
  have hcompactP := compact_p b
  have hcompactNb := compact_nbBuffer b
  rw [grow, if_neg (by omega), Reading.assert_pos (by omega), Reading.done_bind, if_pos (by omega),
    Reading.assert_pos hp, Reading.done_bind]
  by_cases hexists : b.endp - b.p = 0 ∨ b.endp - b.p < b.nbBuffer
  · rw [Reading.assert_pos hexists, Reading.done_bind]
    dsimp only
    rw [if_pos (by omega)]
    exact .inr rfl
  · have habort : (Reading.assert (b.endp - b.p = 0 ∨ b.endp - b.p < b.nbBuffer) : SocketReading Unit) = .abort :=
      if_neg hexists
    rw [habort]
    exact .inl rfl

/-- The buffer serves what fits. -/
theorem serves_iff_fits (hb : b.WellFormed) : b.Serves requiredSize ↔ b.Fits requiredSize := by
  rw [Serves, Int.toNat_natCast]
  constructor
  · intro hserves
    by_contra hfits
    rcases grow_of_not_fits hb hfits with habort | hoverflow
    · rw [habort] at hserves
      exact hserves
    · rw [hoverflow] at hserves
      have hsuccess : errorReaderBufferOverflow = errorSuccess := (hserves not_failed_nil).1
      revert hsuccess
      decide
  · intro hfits
    refine (grow_ensures_of_fits hb hfits).mono ?_
    rintro ⟨ret, b'⟩ reads ⟨-, -, hdata, hret⟩ hdelivers
    rcases hret with ⟨hret, hlength, -⟩ | ⟨e, -, hfailed, -⟩
    · exact ⟨hret, Int.ofNat_le.mpr hlength, hdata⟩
    · exact absurd ⟨e, hfailed⟩ hdelivers

/-! ### What the calls keep -/

/-- The memory behind `start` holds what `nb_buffer` says, which is what it said at first. -/
structure Kept (b : LPushFastBuffer) : Prop where
  wellFormed : b.WellFormed
  nbBuffer : b.nbBuffer = lpDefaultRecvBufferSize

theorem Kept.setBuffer (h : b.Kept) (bufferSize : Int) (behind : Bytes) : (b.setBuffer bufferSize behind).Kept := by
  obtain ⟨⟨hp, hend, hlength⟩, hnb⟩ := h
  unfold LPushFastBuffer.setBuffer
  dsimp only
  split
  · exact ⟨⟨hp, hend, hlength⟩, hnb⟩
  · refine ⟨⟨hp, hend, ?_⟩, hnb⟩
    simp only [List.length_append, List.length_take]
    omega

theorem Kept.grow {reads : List (Delivery SocketError UInt8)} {ret : Int} (h : b.Kept)
    (hreturns : Reading.Returns (b.grow requiredSize) reads (ret, b')) : b'.Kept := by
  by_cases hfits : b.Fits requiredSize
  · obtain ⟨hwellFormed, hnb, -⟩ := (grow_ensures_of_fits h.wellFormed hfits).of_returns hreturns
    exact ⟨hwellFormed, hnb.trans h.nbBuffer⟩
  · rcases grow_of_not_fits h.wellFormed hfits with habort | hoverflow
    · rw [habort] at hreturns
      cases hreturns
    · rw [hoverflow] at hreturns
      cases hreturns
      exact ⟨h.wellFormed.compact, (compact_nbBuffer b).trans h.nbBuffer⟩

theorem Kept.move (h : b.Kept) {p : Nat} (hp : p ≤ b.endp) : { b with p := p }.Kept :=
  ⟨⟨hp, h.wellFormed.endp_le_nbBuffer, h.wellFormed.nbBuffer_le_length⟩, h.nbBuffer⟩

/-- Behind an assertion that holds, the rest returns. -/
theorem returns_assert {α : Type} {condition : Prop} [Decidable condition] {rest : SocketReading α}
    {reads : List (Delivery SocketError UInt8)} {result : α}
    (h : Reading.Returns (Reading.assert condition >>= fun _ => rest) reads result) :
    condition ∧ Reading.Returns rest reads result := by
  by_cases hcondition : condition
  · rw [Reading.assert_pos hcondition, Reading.done_bind] at h
    exact ⟨hcondition, h⟩
  · have habort : (Reading.assert condition : SocketReading Unit) = .abort := if_neg hcondition
    rw [habort] at h
    cases h

theorem Kept.called (h : b.Kept) (hcalled : Called b calls b') : b'.Kept := by
  cases hcalled with
  | setBuffer bufferSize behind => exact h.setBuffer bufferSize behind
  | grow requiredSize hreturns => exact h.grow hreturns
  | readSlice size hreturns =>
      obtain ⟨-, hreturns⟩ := returns_assert hreturns
      obtain ⟨hsize, hreturns⟩ := returns_assert hreturns
      cases hreturns
      exact h.move hsize
  | skip size hreturns =>
      obtain ⟨hsize, hreturns⟩ := returns_assert hreturns
      obtain ⟨hstart, hreturns⟩ := returns_assert hreturns
      cases hreturns
      exact h.move (by omega)

theorem kept_of_used (hused : Used calls b) : b.Kept := by
  refine hused.invariant_state Kept ?_ fun _ _ _ h => h.called
  rintro _ ⟨beyond, rfl⟩
  exact ⟨fresh_wellFormed beyond, rfl⟩

theorem length_data_le (hb : b.WellFormed) : b.data.length ≤ b.nbBuffer := by
  have hlength := hb.length_data
  have hend := hb.endp_le_nbBuffer
  omega

theorem le_capacity (calls : List Call) : (lpDefaultRecvBufferSize : Int) ≤ capacity calls := by
  induction calls using List.reverseRecOn with
  | nil => exact le_rfl
  | append_singleton calls call ih =>
      have hlast : capacity (calls ++ [call]) = call.enlarge (capacity calls) := List.foldl_append
      rw [hlast]
      cases call with
      | setBuffer bufferSize => exact ih.trans (le_max_left _ _)
      | grow requiredSize | readSlice size | skip size => exact ih

/-- **The capacity of the buffer.** After any calls, a request is served if it is unread already or fits
with the unread bytes into the memory the buffer began with, whatever it was enlarged to. So all requests
up to the capacity are served only while the buffer was not enlarged and is empty or full. -/
theorem serves_iff (hused : Used calls b) :
    (∀ n : Int, 1 ≤ n → (b.Serves n ↔ n ≤ b.data.length ∨ b.data.length + n ≤ lpDefaultRecvBufferSize)) ∧
      ((∀ n : Int, 1 ≤ n → n ≤ capacity calls → b.Serves n) ↔
        capacity calls = lpDefaultRecvBufferSize ∧ (b.data = [] ∨ b.data.length = lpDefaultRecvBufferSize)) := by
  have hkept : b.Kept := kept_of_used hused
  have hunread : b.data.length ≤ lpDefaultRecvBufferSize := by
    rw [← hkept.nbBuffer]
    exact length_data_le hkept.wellFormed
  have hpoint : ∀ n : Int, 1 ≤ n →
      (b.Serves n ↔ n ≤ b.data.length ∨ b.data.length + n ≤ lpDefaultRecvBufferSize) := by
    intro n hpos
    obtain ⟨m, rfl⟩ := Int.eq_ofNat_of_zero_le (Int.le_of_lt hpos)
    rw [serves_iff_fits hkept.wellFormed, Fits, hkept.nbBuffer]
    omega
  refine ⟨hpoint, ?_⟩
  have hcapacity := le_capacity calls
  have hsize : lpDefaultRecvBufferSize = 131072 := rfl
  rw [← List.length_eq_zero_iff]
  constructor
  · intro hserves
    have hlargest := (hpoint _ (by omega)).mp (hserves (capacity calls) (by omega) le_rfl)
    omega
  · rintro ⟨hsame, hfull⟩ n hpos hn
    rw [hpoint n hpos]
    omega

theorem used_setBuffer (beyond behind : Bytes) (bufferSize : Int) :
    Used [.setBuffer bufferSize] ((fresh beyond).setBuffer bufferSize behind) :=
  .next (.start ⟨beyond, rfl⟩) (.setBuffer _ bufferSize behind)

theorem data_setBuffer_fresh (beyond behind : Bytes) (bufferSize : Int) :
    ((fresh beyond).setBuffer bufferSize behind).data = [] := by
  unfold LPushFastBuffer.setBuffer
  dsimp only
  split <;> rfl

end

/-- One byte more than the buffer began with. -/
theorem serves_iff_enlarged : ¬ ((fresh []).setBuffer 200000 []).Serves 131073 ∧
    ((fresh []).setBuffer 200000 []).Serves 131072 := by
  have hserves := (serves_iff (used_setBuffer [] [] 200000)).1
  rw [data_setBuffer_fresh] at hserves
  constructor
  · intro hlarge
    exact absurd ((hserves 131073 (by decide)).mp hlarge) (by decide)
  · exact (hserves 131072 (by decide)).mpr (by decide)

/-- The buffer was enlarged to 256KB, and the first request is for 128KB and a byte. -/
theorem not_serves : ¬ ∀ calls b, Used calls b → ∀ n : Int, 1 ≤ n → n ≤ capacity calls → b.Serves n := by
  intro h
  have hserves := h _ _ (used_setBuffer [] [] 262144) (131073 : Nat) (by decide) (by decide)
  have hkept : ((fresh []).setBuffer 262144 []).Kept := kept_of_used (used_setBuffer [] [] 262144)
  rw [serves_iff_fits hkept.wellFormed, Fits, hkept.nbBuffer, data_setBuffer_fresh] at hserves
  revert hserves
  decide

end LPushFastBuffer

end LinkedonPush
