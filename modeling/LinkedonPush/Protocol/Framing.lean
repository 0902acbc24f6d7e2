import LinkedonPush.Protocol.ProtocolStack

/-!
# `readMessage` reads frames

The receiving side refines the frame grammar: whatever the reads deliver and whatever lies in the
memory behind them, a call of `readMessage` takes the first frame of the unread bytes or fails on
bytes that start with no frame. The flag search is the delicate point. It looks at memory the frame
does not own, but a frame with an acceptable length has a zero byte at offset 10, which stops it.
-/

namespace LinkedonPush

open Theory LPushProtocol

/-! ### Facts about the grammar -/

theorem exists_header_of_length {s : Bytes} (h : 14 ≤ s.length) :
    ∃ f0 f1 f2 f3 f4 t0 t1 t2 t3 dataType l0 l1 l2 l3 body,
      s = f0 :: f1 :: f2 :: f3 :: f4 :: t0 :: t1 :: t2 :: t3 :: dataType ::
        l0 :: l1 :: l2 :: l3 :: body := by
  match s, h with
  | f0 :: f1 :: f2 :: f3 :: f4 :: t0 :: t1 :: t2 :: t3 :: dataType :: l0 :: l1 :: l2 :: l3 :: body, _ =>
      exact ⟨f0, f1, f2, f3, f4, t0, t1, t2, t3, dataType, l0, l1, l2, l3, body, rfl⟩

theorem parseFrame_of_short {s : Bytes} (h : s.length < 14) : parseFrame s = .incomplete := by
  unfold parseFrame
  split
  · simp only [List.length_cons] at h
    omega
  · rfl

/-- With an acceptable length, the flag search stops inside the header. -/
theorem occursIn_header {f0 f1 f2 f3 f4 t0 t1 t2 t3 dataType l0 l1 l2 l3 : UInt8}
    (hlow : ¬ (assembleInt l0 l1 l2 l3).toInt ≤ 0)
    (hhigh : ¬ lpushHandshakeDataMax < (assembleInt l0 l1 l2 l3).toInt) (memory : Bytes) :
    cStr (f0 :: f1 :: f2 :: f3 :: f4 :: t0 :: t1 :: t2 :: t3 :: dataType ::
        l0 :: l1 :: l2 :: l3 :: memory) =
      cStr [f0, f1, f2, f3, f4, t0, t1, t2, t3, dataType] := by
  have hzero : l0 = 0 := by
    simp only [lpushHandshakeDataMax] at hhigh
    exact @leading_zero_of_assembleInt l0 l1 l2 l3 (by omega) (by omega)
  subst hzero
  have hnul : (0 : UInt8) ∈ [f0, f1, f2, f3, f4, t0, t1, t2, t3, dataType, 0] := by simp
  calc
    _ = cStr ([f0, f1, f2, f3, f4, t0, t1, t2, t3, dataType, 0] ++ (l1 :: l2 :: l3 :: memory)) := rfl
    _ = cStr [f0, f1, f2, f3, f4, t0, t1, t2, t3, dataType, 0] := cStr_append_of_mem hnul _
    _ = cStr ([f0, f1, f2, f3, f4, t0, t1, t2, t3, dataType] ++ [0]) := rfl
    _ = _ := cStr_append_nul _

/-- What is parsed behind a header. -/
def Parsed.ofBody (header : LPushHeader) (body : Bytes) : Parsed :=
  match LPushChunk.setData header body with
  | none => .incomplete
  | some chunk => .frame chunk (body.drop header.length)

section ofBody

variable {header : LPushHeader} {body rest : Bytes} {chunk : LPushChunk}

theorem ofBody_of_le (h : header.length ≤ body.length) : Parsed.ofBody header body =
    .frame ⟨header, body.take header.length, List.length_take_of_le h⟩ (body.drop header.length) := by
  rw [Parsed.ofBody, LPushChunk.setData_eq_some h]

theorem ofBody_of_lt (h : body.length < header.length) : Parsed.ofBody header body = .incomplete := by
  rw [Parsed.ofBody, LPushChunk.setData_eq_none h]

theorem ofBody_ne_malformed : Parsed.ofBody header body ≠ .malformed := by
  unfold Parsed.ofBody
  split <;> exact Parsed.noConfusion

theorem le_of_ofBody (h : Parsed.ofBody header body = .frame chunk rest) : header.length ≤ body.length := by
  by_contra hshort
  rw [ofBody_of_lt (not_le.mp hshort)] at h
  cases h

theorem ofBody_append (h : Parsed.ofBody header body = .frame chunk rest) (more : Bytes) :
    Parsed.ofBody header (body ++ more) = .frame chunk (rest ++ more) := by
  have hbody : header.length ≤ body.length := le_of_ofBody h
  have hmore : header.length ≤ (body ++ more).length := by
    rw [List.length_append]
    omega
  rw [ofBody_of_le hbody] at h
  obtain ⟨rfl, rfl⟩ := Parsed.frame.inj h
  rw [ofBody_of_le hmore]
  simp only [Parsed.frame.injEq, LPushChunk.mk.injEq, true_and]
  exact ⟨List.take_append_of_le_length hbody, List.drop_append_of_le_length hbody⟩

theorem length_of_ofBody (h : Parsed.ofBody header body = .frame chunk rest) :
    body.length = chunk.header.length + rest.length := by
  have hbody : header.length ≤ body.length := le_of_ofBody h
  rw [ofBody_of_le hbody] at h
  obtain ⟨rfl, rfl⟩ := Parsed.frame.inj h
  show body.length = header.length + (body.drop header.length).length
  rw [List.length_drop]
  omega

end ofBody

/-- Behind a whole header, the stream is malformed whatever follows, or the body decides. -/
theorem parseFrame_of_header {s : Bytes} (h : 14 ≤ s.length) : (∀ more, parseFrame (s ++ more) = .malformed) ∨
    ∃ header, ∀ more, parseFrame (s ++ more) = Parsed.ofBody header (s.drop 14 ++ more) := by
  obtain ⟨f0, f1, f2, f3, f4, t0, t1, t2, t3, dataType, l0, l1, l2, l3, body, rfl⟩ := exists_header_of_length h
  simp only [parseFrame, List.cons_append]
  split
  · exact .inl fun _ => rfl
  · split
    · exact .inl fun _ => rfl
    · exact .inr ⟨⟨assembleInt t0 t1 t2 t3, dataType, assembleInt l0 l1 l2 l3⟩, fun _ => rfl⟩

/-- Only a stream with a whole header is judged. -/
theorem parseFrame_cases {s : Bytes} (h : parseFrame s ≠ .incomplete) : 14 ≤ s.length ∧
    ((parseFrame s = .malformed ∧ ∀ more, parseFrame (s ++ more) = .malformed) ∨
      ∃ header, parseFrame s = Parsed.ofBody header (s.drop 14) ∧
        ∀ more, parseFrame (s ++ more) = Parsed.ofBody header (s.drop 14 ++ more)) := by
  have hlong : 14 ≤ s.length := by
    by_contra hshort
    exact h (parseFrame_of_short (not_le.mp hshort))
  refine ⟨hlong, ?_⟩
  rcases parseFrame_of_header hlong with hmalformed | ⟨header, hbody⟩
  · have hnil := hmalformed []
    rw [List.append_nil] at hnil
    exact .inl ⟨hnil, hmalformed⟩
  · have hnil := hbody []
    rw [List.append_nil, List.append_nil] at hnil
    exact .inr ⟨header, hnil, hbody⟩

/-- A frame does not depend on what follows it. -/
theorem parseFrame_append_of_frame {s rest : Bytes} {chunk : LPushChunk}
    (h : parseFrame s = .frame chunk rest) (more : Bytes) :
    parseFrame (s ++ more) = .frame chunk (rest ++ more) := by
  have hjudged : parseFrame s ≠ .incomplete := by
    rw [h]
    exact Parsed.noConfusion
  rcases (parseFrame_cases hjudged).2 with ⟨hmalformed, -⟩ | ⟨header, hparse, happend⟩
  · cases h.symm.trans hmalformed
  · rw [happend]
    exact ofBody_append (hparse.symm.trans h) more

theorem parseFrame_append_of_malformed {s : Bytes} (h : parseFrame s = .malformed) (more : Bytes) :
    parseFrame (s ++ more) = .malformed := by
  have hjudged : parseFrame s ≠ .incomplete := by
    rw [h]
    exact Parsed.noConfusion
  rcases (parseFrame_cases hjudged).2 with ⟨-, hmalformed⟩ | ⟨header, hparse, -⟩
  · exact hmalformed more
  · exact absurd (hparse.symm.trans h) ofBody_ne_malformed

theorem length_of_parseFrame {s rest : Bytes} {chunk : LPushChunk}
    (h : parseFrame s = .frame chunk rest) : s.length = 14 + chunk.header.length + rest.length := by
  have hjudged : parseFrame s ≠ .incomplete := by
    rw [h]
    exact Parsed.noConfusion
  obtain ⟨hlong, hcases⟩ := parseFrame_cases hjudged
  rcases hcases with ⟨hmalformed, -⟩ | ⟨header, hparse, -⟩
  · cases h.symm.trans hmalformed
  · have hbody := length_of_ofBody (hparse.symm.trans h)
    rw [List.length_drop] at hbody
    omega

/-- The frames of a stream, up to the first point where none starts or the stream ends. -/
def frames (s : Bytes) : List LPushChunk :=
  match _h : parseFrame s with
  | .frame chunk rest => chunk :: frames rest
  | _ => []
termination_by s.length
decreasing_by
  have := length_of_parseFrame _h
  omega

theorem frames_of_frame {s rest : Bytes} {chunk : LPushChunk} (h : parseFrame s = .frame chunk rest) :
    frames s = chunk :: frames rest := by
  rw [frames]
  split
  · rename_i chunk' rest' h'
    rw [h] at h'
    obtain ⟨rfl, rfl⟩ := Parsed.frame.inj h'
    rfl
  · rename_i hnone
    exact (hnone _ _ h).elim

theorem frames_of_not_frame {s : Bytes} (h : ∀ chunk rest, parseFrame s ≠ .frame chunk rest) :
    frames s = [] := by
  rw [frames]
  split
  · rename_i chunk rest heq
    exact (h chunk rest heq).elim
  · rfl

/-! ### The receiving side -/

section receive

variable {b : LPushFastBuffer}

/-- `readHeader` on a buffer whose memory from `p` on is known. -/
theorem readHeader_of_drop {f0 f1 f2 f3 f4 t0 t1 t2 t3 dataType l0 l1 l2 l3 : UInt8} {memory : Bytes}
    (hmem : b.mem.drop b.p = f0 :: f1 :: f2 :: f3 :: f4 :: t0 :: t1 :: t2 :: t3 :: dataType ::
      l0 :: l1 :: l2 :: l3 :: memory)
    (hend : b.p + 14 ≤ b.endp) :
    readHeader b = .done
      (if occursIn lpushFlag (cStr (b.mem.drop b.p)) = false then
        (errorSystemFileRead, .empty, { b with p := b.p + 5 })
      else if (assembleInt l0 l1 l2 l3).toInt ≤ 0 then
        (errorDataEmpty, .empty, { b with p := b.p + 14 })
      else if lpushHandshakeDataMax < (assembleInt l0 l1 l2 l3).toInt then
        (errorDataMax, .empty, { b with p := b.p + 14 })
      else
        (errorSuccess, ⟨assembleInt t0 t1 t2 t3, dataType, assembleInt l0 l1 l2 l3⟩,
          { b with p := b.p + 14 })) := by
  have htimestamp : b.mem.drop (b.p + 5) = t0 :: t1 :: t2 :: t3 :: dataType ::
      l0 :: l1 :: l2 :: l3 :: memory := by rw [← List.drop_drop, hmem]; rfl
  have htype : b.mem.drop (b.p + 5 + 4) = dataType :: l0 :: l1 :: l2 :: l3 :: memory := by
    rw [← List.drop_drop, htimestamp]; rfl
  have hlength : b.mem.drop (b.p + 5 + 4 + 1) = l0 :: l1 :: l2 :: l3 :: memory := by
    rw [← List.drop_drop, htype]; rfl
  have h5 : b.p + 5 ≤ b.endp := by omega
  have h9 : b.p + 5 + 4 ≤ b.endp := by omega
  have h10 : b.p + 5 + 4 + 1 ≤ b.endp := by omega
  have h14 : b.p + 5 + 4 + 1 + 4 ≤ b.endp := by omega
  unfold readHeader LPushFastBuffer.readSlice LPushFastBuffer.read1byte
  simp only [Nat.reduceLT, Reading.assert_pos, Reading.done_bind, Reading.pure_eq_done, h5, h9, h10, h14,
    htimestamp, htype, hlength, readInt]
  split
  · rfl
  · split
    · rfl
    · split <;> rfl

/-- `readHeader` fails on bytes that start with no frame, and otherwise leaves the body to be
judged. -/
theorem readHeader_spec (hb : b.WellFormed) (hlength : 14 ≤ b.data.length) :
    ∃ ret lph b', readHeader b = .done (ret, lph, b') ∧ b'.WellFormed ∧ b'.nbBuffer = b.nbBuffer ∧
      ((ret ≠ errorSuccess ∧ parseFrame b.data = .malformed) ∨
        (ret = errorSuccess ∧ 0 < lph.datalenght.toInt ∧ lph.length ≤ 400 ∧
          b'.data = b.data.drop 14 ∧ ∀ more, parseFrame (b.data ++ more) =
            match LPushChunk.setData lph (b'.data ++ more) with
            | none => .incomplete
            | some chunk => .frame chunk ((b'.data ++ more).drop lph.length))) := by
  obtain ⟨f0, f1, f2, f3, f4, t0, t1, t2, t3, dataType, l0, l1, l2, l3, body, hheader⟩ :=
    exists_header_of_length hlength
  have hdrop : b.mem.drop b.p = f0 :: f1 :: f2 :: f3 :: f4 :: t0 :: t1 :: t2 :: t3 :: dataType ::
      l0 :: l1 :: l2 :: l3 :: (body ++ (b.mem.drop b.p).drop (b.endp - b.p)) := by
    conv_lhs => rw [b.drop_p_eq_data_append, hheader]
    rfl
  have hend : b.p + 14 ≤ b.endp := by
    have := hb.length_data
    omega
  have hskip := hb.skip hlength
  have hskipData : { b with p := b.p + 14 }.data = b.data.drop 14 := b.data_skip 14
  have hparse : ∀ more, parseFrame (b.data ++ more) = parseFrame (f0 :: f1 :: f2 :: f3 :: f4 ::
      t0 :: t1 :: t2 :: t3 :: dataType :: l0 :: l1 :: l2 :: l3 :: (body ++ more)) := by
    intro more
    rw [hheader]
    rfl
  have hparseNil := hparse []
  rw [List.append_nil, List.append_nil] at hparseNil
  rw [readHeader_of_drop hdrop hend]
  by_cases hrange : (assembleInt l0 l1 l2 l3).toInt ≤ 0 ∨
      lpushHandshakeDataMax < (assembleInt l0 l1 l2 l3).toInt
  · -- the length is rejected, unless the flag search already failed
    have hmalformed : parseFrame b.data = .malformed := by
      rw [hparseNil]
      simp only [parseFrame, if_pos hrange]
    by_cases hflag : occursIn lpushFlag (cStr (b.mem.drop b.p)) = false
    · rw [if_pos hflag]
      exact ⟨_, _, _, rfl, hb.skip (by omega), rfl, .inl ⟨by decide, hmalformed⟩⟩
    by_cases hlow : (assembleInt l0 l1 l2 l3).toInt ≤ 0
    · rw [if_neg hflag, if_pos hlow]
      exact ⟨_, _, _, rfl, hskip, rfl, .inl ⟨by decide, hmalformed⟩⟩
    · rw [if_neg hflag, if_neg hlow, if_pos (hrange.resolve_left hlow)]
      exact ⟨_, _, _, rfl, hskip, rfl, .inl ⟨by decide, hmalformed⟩⟩
  -- from here on the search in memory and the search in the header agree
  obtain ⟨hlow, hhigh⟩ := not_or.mp hrange
  rw [hdrop, occursIn_header hlow hhigh, if_neg hlow, if_neg hhigh]
  by_cases hflag : occursIn lpushFlag (cStr [f0, f1, f2, f3, f4, t0, t1, t2, t3, dataType]) = false
  · rw [if_pos hflag]
    refine ⟨_, _, _, rfl, hb.skip (by omega), rfl, .inl ⟨by decide, ?_⟩⟩
    rw [hparseNil]
    simp only [parseFrame, if_neg hrange, if_pos hflag]
  · rw [if_neg hflag]
    refine ⟨_, _, _, rfl, hskip, rfl, .inr ⟨rfl, not_le.mp hlow, ?_, hskipData, fun more => ?_⟩⟩
    · simp only [LPushHeader.length, lpushHandshakeDataMax] at hhigh ⊢
      omega
    · have hbody : { b with p := b.p + 14 }.data = body := by rw [hskipData, hheader]; rfl
      rw [hparse, hbody]
      exact (if_neg hrange).trans (if_neg hflag)

/-- What `readMessage` has done when it returns: it took the first frame of the unread bytes without
a failed read, or it failed on bytes that start with no frame, at the latest when a read failed. -/
def Received (b : LPushFastBuffer) :
    Int × LPushChunk × LPushFastBuffer → List (Delivery SocketError UInt8) → Prop
  | (ret, chunk, b'), history =>
      b'.WellFormed ∧ b'.nbBuffer = b.nbBuffer ∧
        ((ret = errorSuccess ∧ parseFrame (b.data ++ received history) = .frame chunk b'.data ∧
            ¬ Failed history) ∨
          ret ≠ errorSuccess ∧ (parseFrame (b.data ++ received history) = .malformed ∨
            (Failed history ∧ parseFrame (b.data ++ received history) = .incomplete)))

theorem readMessage_ensures (hb : b.WellFormed) (hnb : b.nbBuffer = lpDefaultRecvBufferSize) :
    Reading.Ensures (Received b) (readMessage b) [] := by
  have hsize : b.nbBuffer = 131072 := hnb
  refine Reading.ensures_bind ((LPushFastBuffer.grow_ensures hb (by omega)).mono ?_)
  rintro ⟨ret, b₁⟩ history ⟨hb₁, hnb₁, hdata₁, hret⟩
  rw [List.nil_append] at hdata₁ hret ⊢
  dsimp only
  rcases hret with ⟨rfl, hlength₁, hclean₁⟩ | ⟨e, rfl, hfailed, hshort⟩
  swap
  · -- the header did not arrive
    rw [if_pos e.code_ne_success]
    refine ⟨hb₁, hnb₁, .inr ⟨e.code_ne_success, .inr ⟨⟨e, hfailed⟩, ?_⟩⟩⟩
    rw [← hdata₁]
    exact parseFrame_of_short hshort
  rw [if_neg (by simp)]
  obtain ⟨ret, lph, b₂, hheader, hb₂, hnb₂, hret⟩ := readHeader_spec hb₁ hlength₁
  rw [hheader, Reading.done_bind]
  dsimp only
  rcases hret with ⟨hret, hmalformed⟩ | ⟨rfl, hpos, hmax, -, hparse⟩
  · rw [if_pos hret]
    refine ⟨hb₂, hnb₂.trans hnb₁, .inr ⟨hret, .inl ?_⟩⟩
    rw [← hdata₁]
    exact hmalformed
  rw [if_neg (by simp), if_pos hpos]
  have hlengthPos : 0 < lph.length := by
    simp only [LPushHeader.length]
    omega
  have hgrow := (@LPushFastBuffer.grow_ensures _ hb₂ lph.length (by omega)).after history
  rw [List.append_nil] at hgrow
  refine Reading.ensures_bind (hgrow.mono ?_)
  rintro ⟨ret, b₃⟩ more ⟨since, hsince, hb₃, hnb₃, hdata₃, hret⟩
  obtain rfl := List.append_cancel_left hsince
  have htotal : b.data ++ received (history ++ more) = b₁.data ++ received more := by
    rw [received_append, ← List.append_assoc, hdata₁]
  dsimp only
  rcases hret with ⟨rfl, hlength₃, hclean₃⟩ | ⟨e, rfl, hfailed, hshort⟩
  swap
  · -- the body did not arrive
    rw [if_pos e.code_ne_success]
    refine ⟨hb₃, hnb₃.trans (hnb₂.trans hnb₁), .inr ⟨e.code_ne_success, .inr ⟨⟨e, ?_⟩, ?_⟩⟩⟩
    · exact List.mem_append_right _ hfailed
    · rw [htotal, hparse, ← hdata₃, LPushChunk.setData_eq_none hshort]
  rw [if_neg (by simp)]
  have hslice : b₃.p + lph.length ≤ b₃.endp := by
    have := hb₃.length_data
    omega
  have hdrop := b₃.drop_p_eq_data_append
  have hmemory : lph.length ≤ (b₃.mem.drop b₃.p).length := by
    rw [hdrop, List.length_append]
    omega
  simp only [LPushFastBuffer.readSlice, Reading.assert_pos hlengthPos, Reading.assert_pos hslice,
    Reading.done_bind, Reading.pure_eq_done, LPushChunk.setData_eq_some hmemory]
  have hclean : ¬ Failed (history ++ more) := by
    rw [failed_append]
    exact not_or.mpr ⟨hclean₁, hclean₃⟩
  refine ⟨hb₃.skip hlength₃, hnb₃.trans (hnb₂.trans hnb₁), .inl ⟨rfl, ?_, hclean⟩⟩
  rw [htotal, hparse, ← hdata₃, LPushChunk.setData_eq_some hlength₃, b₃.data_skip]
  simp only [Parsed.frame.injEq, LPushChunk.mk.injEq, true_and, and_true]
  conv_rhs => rw [hdrop]
  exact (List.take_append_of_le_length hlength₃).symm

end receive

end LinkedonPush
