import LinkedonPush.Protocol.Handshake

/-!
# The codes of the protocol

What `readMessage` and the two judgements of `LPushProtocol` can return, whatever they read.
-/

namespace LinkedonPush

open Theory

/-- The codes of `LPushFastBuffer::grow`. -/
def growCodes : List Int := [errorSuccess, errorSocketTimeout, errorSocketRead, errorReaderBufferOverflow]

/-- The codes of `readMessage`. -/
def readCodes : List Int := growCodes ++ [errorSystemFileRead, errorDataEmpty, errorDataMax]

theorem SocketError.code_mem (e : SocketError) : e.code ∈ growCodes := by
  cases e <;> decide

namespace LPushFastBuffer

theorem yields_fill (requiredSize : Nat) (b : LPushFastBuffer) (nbFreeSpace : Nat) :
    (fill requiredSize b nbFreeSpace).Yields fun result => result.1 ∈ growCodes := by
  induction b, nbFreeSpace using fill.induct requiredSize with
  | case1 b nbFreeSpace hmissing ih =>
      rw [fill, dif_pos hmissing]
      intro d
      cases d with
      | error e => exact e.code_mem
      | ok piece =>
          dsimp only
          split
          · rename_i hread
            exact ih piece hread
          · trivial
  | case2 b nbFreeSpace hfull =>
      rw [fill, dif_neg hfull]
      exact List.mem_cons_self

theorem yields_grow (b : LPushFastBuffer) (requiredSize : Nat) :
    (b.grow requiredSize).Yields fun result => result.1 ∈ growCodes := by
  unfold grow
  split
  · exact List.mem_cons_self
  · refine Reading.yields_bind_of_forall fun _ => ?_
    split
    · refine Reading.yields_bind_of_forall fun _ => Reading.yields_bind_of_forall fun _ => ?_
      dsimp only
      split
      · show errorReaderBufferOverflow ∈ growCodes
        decide
      · exact yields_fill ..
    · exact yields_fill ..

end LPushFastBuffer

namespace LPushProtocol

theorem yields_readHeader (b : LPushFastBuffer) : (readHeader b).Yields fun result => result.1 ∈ readCodes := by
  refine Reading.yields_bind_of_forall fun ⟨buf, b⟩ => ?_
  dsimp only
  split
  · show errorSystemFileRead ∈ readCodes
    decide
  · refine Reading.yields_bind_of_forall fun _ => Reading.yields_bind_of_forall fun _ => ?_
    refine Reading.yields_bind_of_forall fun _ => Reading.yields_bind_of_forall fun _ => ?_
    refine Reading.yields_bind_of_forall fun dataLen => ?_
    split
    · show errorDataEmpty ∈ readCodes
      decide
    · split
      · show errorDataMax ∈ readCodes
        decide
      · show errorSuccess ∈ readCodes
        decide

theorem yields_readMessage (b : LPushFastBuffer) : (readMessage b).Yields fun result => result.1 ∈ readCodes := by
  have hgrow (b : LPushFastBuffer) (size : Nat) : (b.grow size).Yields fun result => result.1 ∈ readCodes :=
    (b.yields_grow size).mono fun _ h => List.mem_append_left _ h
  refine Reading.yields_bind ((hgrow b 14).mono fun ⟨ret, b⟩ hret => ?_)
  dsimp only
  split
  · exact hret
  · refine Reading.yields_bind ((yields_readHeader b).mono fun ⟨ret, lph, b⟩ hret => ?_)
    dsimp only
    split
    · exact hret
    · split
      · refine Reading.yields_bind ((hgrow b lph.length).mono fun ⟨ret, b⟩ hret => ?_)
        dsimp only
        split
        · exact hret
        · refine Reading.yields_bind_of_forall fun _ => ?_
          split
          · trivial
          · exact hret
      · split
        · trivial
        · exact hret

/-- The codes of `handshake`. -/
theorem handshake_code {platform : Platform} {beyond : Nat → UInt8} {message : LPushChunk} {ret : Int}
    {msg : LPushHandshakeMessage} (h : (handshake platform beyond message).result = some (ret, msg)) :
    ret = errorSuccess ∨ ret = errorSystemHandshake := by
  unfold handshake at h
  dsimp only at h
  split at h
  · exact .inr (Prod.mk.inj (Option.some.inj h)).1.symm
  · rw [Access.result_bind] at h
    obtain ⟨type, -, h⟩ := Option.bind_eq_some_iff.mp h
    split at h
    · exact .inr (Prod.mk.inj (Option.some.inj h)).1.symm
    · rw [Access.result_bind] at h
      obtain ⟨decoded, -, h⟩ := Option.bind_eq_some_iff.mp h
      split at h
      · exact .inr (Prod.mk.inj (Option.some.inj h)).1.symm
      · split at h
        · exact .inr (Prod.mk.inj (Option.some.inj h)).1.symm
        · exact .inl (Prod.mk.inj (Option.some.inj h)).1.symm

theorem createConnection_code (message : LPushChunk) :
    createConnection message = errorSuccess ∨ createConnection message = errorSystemHandshake := by
  unfold createConnection
  split
  · exact .inr rfl
  · exact .inl rfl

end LPushProtocol

end LinkedonPush
