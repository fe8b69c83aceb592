import UnidriveMount.Ipc.Reading
import UnidriveMount.Ipc.Reconnect

/-!
# Framing

What `read_inbound_line` makes of a whole stream (`ipc.rs`). Called until the end, it answers the lines
of the stream and what is left of it (`frames`), however the stream is divided into the chunks that are
read: a run that reads a stream gives its frames, and every stream is read in every division
(`readToEnd_frames`).
-/

namespace UnidriveMount

open Lib

/-! ## Frames -/

/-- The frames of a stream of which `piece`, a part of a line, has been read. -/
def framesAfter (limit : Nat) (piece : List UInt8) :
    List UInt8 → List (Except IoErrorKind InboundLine)
  | [] =>
    if piece = [] then [.ok .eof]
    else if piece.length < limit then [.ok (.line piece), .ok .eof]
    else [.error .unexpectedEof]
  | b :: stream =>
    if b = newline then
      (if piece.length + 1 ≤ limit then .ok (.line (piece ++ [b])) else .ok .tooLong) ::
        framesAfter limit [] stream
    else framesAfter limit (piece ++ [b]) stream

/-- The frames of a stream: each line, if it has at most `limit` bytes with its line break, and then the
piece without a line break at the end. -/
def frames (limit : Nat) (stream : List UInt8) : List (Except IoErrorKind InboundLine) :=
  framesAfter limit [] stream

section
variable {limit : Nat}

theorem framesAfter_append {body : List UInt8} (h : newline ∉ body) (piece stream : List UInt8) :
    framesAfter limit piece (body ++ stream) = framesAfter limit (piece ++ body) stream := by
  induction body generalizing piece with
  | nil => rw [List.nil_append, List.append_nil]
  | cons b body ih =>
    rw [List.mem_cons, not_or] at h
    rw [List.cons_append, framesAfter, if_neg (Ne.symm h.1), ih h.2, List.append_assoc,
      List.singleton_append]

/-- The first line of a stream. -/
theorem frames_line {line : List UInt8} (h : IsLine line) (stream : List UInt8) :
    frames limit (line ++ stream) =
      (if line.length ≤ limit then .ok (.line line) else .ok .tooLong) :: frames limit stream := by
  obtain ⟨body, hbody, rfl⟩ := h
  rw [frames, List.append_assoc, framesAfter_append hbody, List.nil_append, List.singleton_append,
    framesAfter, if_pos rfl, List.length_append, List.length_singleton]
  rfl

/-- The end of a stream. -/
theorem frames_end {piece : List UInt8} (h : newline ∉ piece) :
    frames limit piece =
      if piece = [] then [.ok .eof]
      else if piece.length < limit then [.ok (.line piece), .ok .eof]
      else [.error .unexpectedEof] := by
  have := @framesAfter_append limit piece h [] []
  rw [List.append_nil] at this
  rw [frames, this, List.nil_append, framesAfter]

end

/-! ## Reading a stream -/

/-- `read_inbound_line`, called until it answers the end or fails, `n` times at most: the results. -/
def readToEnd (fuel conn limit : Nat) : Nat → NetProg (List (Except IoErrorKind InboundLine))
  | 0 => Prog.fail .running
  | n + 1 => Prog.onResult (readInboundLine fuel conn limit) fun
    | .ok .eof => pure [.ok .eof]
    | .ok line => do return .ok line :: (← readToEnd fuel conn limit n)
    | .error (.failed (.io kind)) => pure [.error kind]
    | .error e => Prog.fail e

section
variable {serde : Serde} {daemon : Daemon} {s s' : NetState} {conn fuel limit : Nat}
  {es : List (Occ NetAct.Ret)}

/-- Nothing is read from a connection after its end. -/
theorem Conn.Reads.of_drained {c c' : Conn} {read : List UInt8} (h : c.Reads read c')
    (hc : c.Drained) : read = [] ∧ c'.Drained := by
  obtain ⟨more, -, hread, hmore⟩ := h.arrived
  rw [hc.2, hmore hc.1] at hread
  obtain ⟨rfl, hunread⟩ := List.append_eq_nil_iff.1 hread.symm
  exact ⟨rfl, h.eof hc.1, hunread⟩

/-- What was read up to the end is all that had not been read before. -/
theorem Conn.Reads.eq_drop {c c' : Conn} {read : List UInt8} (h : c.Reads read c')
    (hpos : c.pos ≤ c.got.length) (hc : c'.Drained) : read = c'.got.drop c.pos := by
  obtain ⟨more, hgot, hread, -⟩ := h.arrived
  rw [hc.2, List.append_nil] at hread
  rw [hgot, List.drop_append_of_le_length hpos, ← hread]
  rfl

/-- How the calls end that consumed `read`: a read fails, or the fuel or the number of calls does not
suffice, or they answer the frames. -/
def ReadAll (conn fuel limit n : Nat) (es : List (Occ NetAct.Ret)) (c : Conn) (read : List UInt8)
    (res : Except Stop (List (Except IoErrorKind InboundLine))) : Prop :=
  (∃ kind, (⟨.fillBuf conn, .error kind⟩ : Occ NetAct.Ret) ∈ es) ∨ fuel ≤ read.length ∨
    n ≤ read.length ∨ res = .ok (frames limit read) ∧ c.Drained

/-- A frame that was read, and then the rest of the stream. -/
theorem ReadAll.cons {n : Nat} {es₁ es₂ : List (Occ NetAct.Ret)} {c : Conn} {line : InboundLine}
    {read read' : List UInt8} {res : Except Stop (List (Except IoErrorKind InboundLine))}
    (h : ReadAll conn fuel limit n es₂ c read' res) (hsome : read ≠ [])
    (hframes : frames limit (read ++ read') = .ok line :: frames limit read') :
    ReadAll conn fuel limit (n + 1) (es₁ ++ es₂) c (read ++ read') (res.map (.ok line :: ·)) := by
  have hlen := List.length_pos_iff.2 hsome
  have happ : (read ++ read').length = read.length + read'.length := List.length_append
  rcases h with ⟨kind, hmem⟩ | hfuel | hn | ⟨rfl, hend⟩
  · exact .inl ⟨kind, List.mem_append_right _ hmem⟩
  · exact .inr (.inl (by omega))
  · exact .inr (.inr (.inl (by omega)))
  · refine .inr (.inr (.inr ⟨?_, hend⟩))
    rw [hframes]
    rfl

/-- **What is read to the end of a stream** is its frames. -/
theorem readToEnd_spec {n : Nat} {res : Except Stop (List (Except IoErrorKind InboundLine))}
    (hx : Exec (netMachine serde daemon) (readToEnd fuel conn limit n) s es res s')
    (hlimit : limit ≠ 0) (hpos : (s.conns conn).pos ≤ (s.conns conn).got.length) :
    ∃ read, s.Reads conn read s' ∧ ReadAll conn fuel limit n es (s'.conns conn) read res := by
  induction n generalizing s es res with
  | zero =>
    obtain ⟨-, rfl, rfl⟩ := exec_ret_iff.1 hx
    exact ⟨[], .refl hpos, .inr (.inr (.inl (Nat.zero_le _)))⟩
  | succ n ih =>
    obtain ⟨r, s₁, es₁, es₂, hread, hk, rfl⟩ := exec_onResult_iff.1 hx
    obtain ⟨read, hreads, hends⟩ := readInboundLine_ends hread hlimit hpos
    have hpos₁ := hreads.conn.within
    -- a line was answered: the calls after it read the rest
    have hmore : ∀ {line : InboundLine}, Exec (netMachine serde daemon)
        (do return .ok line :: (← readToEnd fuel conn limit n)) s₁ es₂ res s' →
        ∃ read' res', s₁.Reads conn read' s' ∧ res = res'.map (.ok line :: ·) ∧
          ReadAll conn fuel limit n es₂ (s'.conns conn) read' res' := by
      intro line hk
      obtain ⟨res', hx', rfl⟩ := exec_map_iff.1 hk
      obtain ⟨read', hreads', hall⟩ := ih hx' hpos₁
      exact ⟨read', res', hreads', rfl, hall⟩
    cases hends with
    | failed hmem =>
      obtain ⟨-, rfl, rfl⟩ := exec_ret_iff.1 hk
      exact ⟨read, hreads, .inl ⟨_, List.mem_append_left _ hmem⟩⟩
    | running _ hlen =>
      obtain ⟨-, rfl, rfl⟩ := exec_ret_iff.1 hk
      exact ⟨read, hreads, .inr (.inl hlen)⟩
    | ended hopen hlen hend =>
      obtain ⟨rfl, rfl, rfl⟩ := exec_ret_iff.1 hk
      refine ⟨read, hreads, .inr (.inr (.inr ⟨?_, hend⟩))⟩
      rw [frames_end hopen, if_neg (List.length_pos_iff.1 (by omega)), if_neg (by omega)]
    | answered hsays =>
      cases hsays with
      | eof hend =>
        obtain ⟨rfl, rfl, rfl⟩ := exec_ret_iff.1 hk
        exact ⟨[], hreads, .inr (.inr (.inr ⟨rfl, hend⟩))⟩
      | line hline hle =>
        obtain ⟨read', res', hreads', rfl, hall⟩ := hmore hk
        refine ⟨_, hreads.trans hreads', hall.cons hline.ne_nil ?_⟩
        rw [frames_line hline, if_pos hle]
      | tooLong hline hlt =>
        obtain ⟨read', res', hreads', rfl, hall⟩ := hmore hk
        refine ⟨_, hreads.trans hreads', hall.cons hline.ne_nil ?_⟩
        rw [frames_line hline, if_neg (by omega)]
      | cut hopen hsome hlt hend =>
        obtain ⟨read', res', hreads', rfl, hall⟩ := hmore hk
        obtain ⟨rfl, -⟩ := hreads'.conn.of_drained hend
        refine ⟨_, hreads.trans hreads', hall.cons hsome ?_⟩
        rw [List.append_nil, frames_end hopen, if_neg hsome, if_pos hlt]
        rfl

theorem readToEnd_only (fuel conn limit n : Nat) :
    (readToEnd fuel conn limit n).Only (NetAct.ReadsFrom conn) := by
  induction n with
  | zero => trivial
  | succ n ih =>
    refine .onResult (readInboundLine_only ..) fun r => ?_
    rcases r with (kind | _) | _ | _ | _
    · cases kind <;> trivial
    · trivial
    · trivial
    · exact .bind ih fun _ => trivial
    · exact .bind ih fun _ => trivial

end

/-! ## Divisions into chunks -/

/-- The chunk that comes after the first `n` bytes. -/
def chunkAt : List (List UInt8) → Nat → List UInt8
  | [], _ => []
  | chunk :: chunks, n => if n = 0 then chunk else chunkAt chunks (n - chunk.length)

theorem chunkAt_append {pre post : List (List UInt8)} (h : [] ∉ pre) :
    chunkAt (pre ++ post) pre.flatten.length = post.headD [] := by
  induction pre with
  | nil => cases post <;> rfl
  | cons chunk pre ih =>
    rw [List.mem_cons, not_or] at h
    have hlen := List.length_pos_iff.2 (Ne.symm h.1)
    rw [List.cons_append, chunkAt, List.flatten_cons, List.length_append, if_neg (by omega),
      Nat.add_sub_cancel_left, ih h.2]

/-- A daemon that sends these chunks and closes the connection. -/
def sending (chunks : List (List UInt8)) : Daemon := fun c chunk => chunk = chunkAt chunks c.got.length

/-- An outside that delivers the chunks on the connection. -/
def delivering (chunks : List (List UInt8)) (conn : Nat) (s : NetState) : NetWorld :=
  .sends (chunkAt chunks (s.conns conn).got.length)

/-- Some of the chunks have been delivered on the connection, all of them if it is closed. -/
def Delivered (chunks : List (List UInt8)) (c : Conn) : Prop :=
  ∃ pre post, chunks = pre ++ post ∧ c.got = pre.flatten ∧ (c.eof = true → post = [])

section
variable {serde : Serde} {s s' : NetState} {conn : Nat} {chunks : List (List UInt8)}

/-- **The chunks are delivered** one after the other, and no read fails. -/
theorem delivered_of_step {a : NetAct} {r : a.Ret} (hchunks : [] ∉ chunks)
    (hst : ((netMachine serde (sending chunks)).under (delivering chunks conn)).Step a s r s')
    (ha : a.ReadsFrom conn) (h : Delivered chunks (s.conns conn)) :
    Delivered chunks (s'.conns conn) ∧
      ∀ kind, (⟨a, r⟩ : Occ NetAct.Ret) ≠ ⟨.fillBuf conn, .error kind⟩ := by
  obtain ⟨-, -, (hrun : a.run serde (sending chunks) (delivering chunks conn s) s = (r, s'))⟩ := hst
  cases a with
  | consume c n =>
    obtain rfl : c = conn := ha
    cases hrun
    refine ⟨?_, fun _ h => by cases h⟩
    rw [modifyConn_conns, if_pos rfl]
    exact h
  | fillBuf c =>
    obtain rfl : c = conn := ha
    obtain ⟨pre, post, heq, hgot, heof⟩ := h
    have hnext : chunkAt chunks (s.conns c).got.length = post.headD [] := by
      rw [hgot, heq]
      exact chunkAt_append fun hmem => hchunks (heq ▸ List.mem_append_left _ hmem)
    have hrun : s.fillBuf (sending chunks) (delivering chunks c s) c = (r, s') := hrun
    simp only [NetState.fillBuf] at hrun
    split at hrun
    · cases hrun
      exact ⟨⟨pre, post, heq, hgot, heof⟩, fun _ h => by cases h⟩
    · split at hrun
      · cases hrun
        exact ⟨⟨pre, post, heq, hgot, heof⟩, fun _ h => by cases h⟩
      · next hopen =>
        have hchunk : (delivering chunks c s).chunk = .ok (post.headD []) :=
          congrArg Except.ok hnext
        rw [hchunk] at hrun
        dsimp only at hrun
        split at hrun
        · next hsome =>
          cases hrun
          cases post with
          | nil => exact absurd rfl hsome.1
          | cons chunk post =>
            refine ⟨⟨pre ++ [chunk], post, by simp [heq], ?_, ?_⟩, fun _ h => by cases h⟩
            · simp [hgot]
            · rw [modifyConn_conns, if_pos rfl]
              exact fun he => absurd he hopen
        · next hnone =>
          cases hrun
          refine ⟨⟨pre, post, heq, by simp [hgot], fun _ => ?_⟩, fun _ h => by cases h⟩
          cases post with
          | nil => rfl
          | cons chunk post =>
            refine absurd ⟨?_, decide_eq_true hnext.symm⟩ hnone
            rintro rfl
            exact hchunks (heq ▸ List.mem_append_right _ (List.mem_cons_self ..))
  | _ => exact ha.elim

theorem delivered_of_exec {α : Type} {p : NetProg α} {es : List (Occ NetAct.Ret)}
    {res : Except Stop α} (hchunks : [] ∉ chunks)
    (hx : Exec ((netMachine serde (sending chunks)).under (delivering chunks conn)) p s es res s')
    (hp : p.Only (NetAct.ReadsFrom conn)) (h : Delivered chunks (s.conns conn)) :
    Delivered chunks (s'.conns conn) ∧
      ∀ kind, (⟨.fillBuf conn, .error kind⟩ : Occ NetAct.Ret) ∉ es := by
  induction hx with
  | ret => exact ⟨h, fun _ => List.not_mem_nil⟩
  | act hst _ ih =>
    obtain ⟨hdelivered, hok⟩ := delivered_of_step hchunks hst hp.1 h
    obtain ⟨hdelivered', hok'⟩ := ih (hp.2 _) hdelivered
    refine ⟨hdelivered', fun kind hmem => ?_⟩
    rcases List.mem_cons.1 hmem with heq | hmem
    · exact hok kind heq.symm
    · exact hok' kind hmem

/-- A run with the fuel for the stream, in which no read fails, answers the frames. -/
theorem readToEnd_of_stream {daemon : Daemon} {fuel limit n : Nat} {es : List (Occ NetAct.Ret)}
    {res : Except Stop (List (Except IoErrorKind InboundLine))} {stream : List UInt8}
    (hlimit : limit ≠ 0)
    (hx : Exec (netMachine serde daemon) (readToEnd fuel conn limit n) s es res s')
    (hpos : (s.conns conn).pos ≤ (s.conns conn).got.length)
    (hok : ∀ kind, (⟨.fillBuf conn, .error kind⟩ : Occ NetAct.Ret) ∉ es)
    (hstream : stream = (s'.conns conn).got.drop (s.conns conn).pos)
    (hfuel : stream.length < fuel) (hn : stream.length < n) :
    res = .ok (frames limit stream) ∧ (s'.conns conn).Drained := by
  subst hstream
  obtain ⟨read, hreads, hall⟩ := readToEnd_spec hx hlimit hpos
  have hlen : read.length ≤ ((s'.conns conn).got.drop (s.conns conn).pos).length := by
    have := hreads.conn.within
    rw [hreads.conn.pos] at this
    rw [List.length_drop]
    omega
  rcases hall with ⟨kind, hmem⟩ | hfuel' | hn' | ⟨rfl, hend⟩
  · exact absurd hmem (hok kind)
  · omega
  · omega
  · rw [hreads.conn.eq_drop hpos hend]
    exact ⟨rfl, hend⟩

/-- A stream is read in every division. -/
theorem exists_readToEnd {fuel limit n : Nat} (hlimit : limit ≠ 0) (hchunks : [] ∉ chunks)
    (hnew : s.conns conn = .new) (hfuel : chunks.flatten.length < fuel)
    (hn : chunks.flatten.length < n) :
    ∃ es s', Exec (netMachine serde (sending chunks)) (readToEnd fuel conn limit n) s es
        (.ok (frames limit chunks.flatten)) s' ∧
      (s'.conns conn).got = chunks.flatten := by
  obtain ⟨es, res, s', hx⟩ := (netMachine serde (sending chunks)).exists_exec_under
    (fun _ _ => rfl) (delivering chunks conn) (readToEnd fuel conn limit n) s
  have hstart : Delivered chunks (s.conns conn) := by
    rw [hnew]
    exact ⟨[], chunks, rfl, rfl, nofun⟩
  obtain ⟨⟨pre, post, heq, hgot, heof⟩, hok⟩ :=
    delivered_of_exec hchunks hx (readToEnd_only ..) hstart
  have hle : pre.flatten.length ≤ chunks.flatten.length := by
    rw [heq, List.flatten_append, List.length_append]
    omega
  have hx := hx.of_step fun _ _ _ _ => Machine.step_of_under
  have hstream : pre.flatten = (s'.conns conn).got.drop (s.conns conn).pos := by
    rw [hnew, hgot]
    rfl
  obtain ⟨rfl, hend⟩ := readToEnd_of_stream hlimit hx (by rw [hnew]; exact le_rfl) hok hstream
    (by omega) (by omega)
  obtain rfl := heof hend.1
  rw [List.append_nil] at heq
  subst heq
  exact ⟨es, s', hx, hgot⟩

/-- **Line framing**: a run that reads a stream to its end, with the fuel for it and without a failure
to read, answers the frames of the stream; and every stream is read in every division into chunks. -/
theorem readToEnd_frames {limit : Nat} (hlimit : 1 ≤ limit) :
    (∀ daemon s s' conn fuel n es res stream,
      Exec (netMachine serde daemon) (readToEnd fuel conn limit n) s es res s' →
      (s.conns conn).pos ≤ (s.conns conn).got.length →
      (∀ kind, (⟨.fillBuf conn, .error kind⟩ : Occ NetAct.Ret) ∉ es) →
      stream = (s'.conns conn).got.drop (s.conns conn).pos →
      stream.length < fuel → stream.length < n →
      res = .ok (frames limit stream) ∧ (s'.conns conn).Drained) ∧
    ∀ (chunks : List (List UInt8)) s conn fuel n, [] ∉ chunks → s.conns conn = .new →
      chunks.flatten.length < fuel → chunks.flatten.length < n →
      ∃ es s', Exec (netMachine serde (sending chunks)) (readToEnd fuel conn limit n) s es
          (.ok (frames limit chunks.flatten)) s' ∧
        (s'.conns conn).got = chunks.flatten :=
  have hne : limit ≠ 0 := Nat.one_le_iff_ne_zero.1 hlimit
  ⟨fun _ _ _ _ _ _ _ _ _ hx hpos hok hstream hfuel hn =>
      readToEnd_of_stream hne hx hpos hok hstream hfuel hn,
    fun _ _ _ _ _ hchunks hnew hfuel hn => exists_readToEnd hne hchunks hnew hfuel hn⟩

/-- With a limit of three bytes: a line, one that is too long, and a piece, in two divisions. -/
theorem readToEnd_frames_sample :
    (∃ es s', Exec (netMachine Serde.sample (sending [[97, 10, 98], [99, 100], [10, 101]]))
      (readToEnd 8 0 3 8) .new es
      (.ok [.ok (.line [97, 10]), .ok .tooLong, .ok (.line [101]), .ok .eof]) s' ∧
        (s'.conns 0).got = [97, 10, 98, 99, 100, 10, 101]) ∧
    ∃ es s', Exec (netMachine Serde.sample (sending [[97], [10, 98, 99, 100, 10, 101]]))
      (readToEnd 8 0 3 8) .new es
      (.ok [.ok (.line [97, 10]), .ok .tooLong, .ok (.line [101]), .ok .eof]) s' ∧
        (s'.conns 0).got = [97, 10, 98, 99, 100, 10, 101] :=
  ⟨(readToEnd_frames (by decide)).2 [[97, 10, 98], [99, 100], [10, 101]] .new 0 8 8 (by decide) rfl
      (by decide) (by decide),
    (readToEnd_frames (by decide)).2 [[97], [10, 98, 99, 100, 10, 101]] .new 0 8 8 (by decide) rfl
      (by decide) (by decide)⟩

end

end UnidriveMount
