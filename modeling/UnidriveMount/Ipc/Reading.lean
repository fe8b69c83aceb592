import UnidriveMount.Ipc.Client

/-!
# What the client reads

The specification of `read_inbound_line` over the bytes of a connection, for any daemon: what is
consumed is a line with its line break, the unterminated end of a stream, or, when the line is too
long, all of it.
-/

namespace UnidriveMount

open Lib
open Lib.Prog (only_perform)

/-! ## Bytes consumed -/

/-- The bytes are one line with its line break. -/
def IsLine (buf : List UInt8) : Prop := ∃ body, newline ∉ body ∧ buf = body ++ [newline]

/-- The bytes that have arrived and were not consumed. -/
def Conn.unread (c : Conn) : List UInt8 := c.got.drop c.pos

/-- From `c` to `c'` the bytes `read` were consumed; meanwhile more may have arrived. -/
structure Conn.Reads (c : Conn) (read : List UInt8) (c' : Conn) : Prop where
  sent : c'.sent = c.sent
  arrived : ∃ more, c'.got = c.got ++ more ∧ c.unread ++ more = read ++ c'.unread ∧
    (c.eof = true → more = [])
  pos : c'.pos = c.pos + read.length
  within : c'.pos ≤ c'.got.length
  eof : c.eof = true → c'.eof = true

theorem Conn.Reads.refl {c : Conn} (h : c.pos ≤ c.got.length) : c.Reads [] c where
  sent := rfl
  arrived := ⟨[], by simp⟩
  pos := rfl
  within := h
  eof := id

theorem Conn.Reads.trans {c c₁ c' : Conn} {read read' : List UInt8} (h : c.Reads read c₁)
    (h' : c₁.Reads read' c') : c.Reads (read ++ read') c' where
  sent := h'.sent.trans h.sent
  arrived := by
    obtain ⟨more, hgot, hread, heof⟩ := h.arrived
    obtain ⟨more', hgot', hread', heof'⟩ := h'.arrived
    refine ⟨more ++ more', by rw [hgot', hgot, List.append_assoc], ?_, fun he => ?_⟩
    · rw [← List.append_assoc, hread, List.append_assoc, hread', List.append_assoc]
    · rw [heof he, heof' (h.eof he), List.append_nil]
  pos := by
    rw [h'.pos, h.pos, List.length_append, Nat.add_assoc]
  within := h'.within
  eof he := h'.eof (h.eof he)

/-- What was consumed before is consumed before what was read. -/
theorem Conn.Reads.take {c c' : Conn} {read : List UInt8} (h : c.Reads read c')
    (hpos : c.pos ≤ c.got.length) : c'.got.take c'.pos = c.got.take c.pos ++ read := by
  obtain ⟨more, hgot, hread, -⟩ := h.arrived
  rw [h.pos, hgot, List.take_add, List.take_append_of_le_length hpos,
    List.drop_append_of_le_length hpos]
  congr 1
  rw [show c.got.drop c.pos = c.unread from rfl, hread, List.take_left]

/-- Only the connection `conn` changed: the bytes `read` of it were consumed. -/
structure NetState.Reads (s : NetState) (conn : Nat) (read : List UInt8) (s' : NetState) : Prop where
  frame : s' = s.modifyConn conn fun _ => s'.conns conn
  conn : (s.conns conn).Reads read (s'.conns conn)

section
variable {s s₁ s' : NetState} {conn : Nat}

@[simp] theorem modifyConn_conns (f : Conn → Conn) (c : Nat) :
    (s.modifyConn conn f).conns c = if c = conn then f (s.conns conn) else s.conns c :=
  Function.update_apply ..

@[simp] theorem modifyConn_modifyConn (f g : Conn → Conn) :
    (s.modifyConn conn f).modifyConn conn g = s.modifyConn conn fun c => g (f c) := by
  simp [NetState.modifyConn]

theorem modifyConn_self : s.modifyConn conn (fun _ => s.conns conn) = s := by
  simp [NetState.modifyConn]

theorem modifyConn_frame (f : Conn → Conn) :
    s.modifyConn conn f = s.modifyConn conn fun _ => (s.modifyConn conn f).conns conn := by
  simp [NetState.modifyConn]

theorem NetState.Reads.refl (h : (s.conns conn).pos ≤ (s.conns conn).got.length) :
    s.Reads conn [] s :=
  ⟨modifyConn_self.symm, .refl h⟩

theorem NetState.Reads.trans {read read' : List UInt8} (h : s.Reads conn read s₁)
    (h' : s₁.Reads conn read' s') : s.Reads conn (read ++ read') s' where
  frame := by
    conv => lhs; rw [h'.frame, h.frame, modifyConn_modifyConn]
  conn := h.conn.trans h'.conn

/-- The other connections are as they were. -/
theorem NetState.Reads.other {read : List UInt8} (h : s.Reads conn read s') {c : Nat}
    (hc : c ≠ conn) : s'.conns c = s.conns c := by
  rw [h.frame, modifyConn_conns, if_neg hc]

end

/-! ## The actions -/

section
variable {serde : Serde} {daemon : Daemon} {s s' : NetState} {conn : Nat}

/-- `fill_buf` consumes nothing, and answers all that is there; nothing means the end. -/
theorem reads_of_fillBuf {r : Except IoErrorKind (List UInt8)}
    (hst : (netMachine serde daemon).Step (.fillBuf conn) s r s')
    (hpos : (s.conns conn).pos ≤ (s.conns conn).got.length) :
    s.Reads conn [] s' ∧ ∀ chunk, r = .ok chunk → chunk = (s'.conns conn).unread ∧
      (chunk = [] → (s'.conns conn).eof = true) := by
  obtain ⟨-, (w : NetWorld), (hrun : s.fillBuf daemon w conn = (r, s'))⟩ := hst
  simp only [NetState.fillBuf] at hrun
  split at hrun
  · next hlt =>
    cases hrun
    refine ⟨.refl hpos, ?_⟩
    rintro _ ⟨⟩
    refine ⟨rfl, fun hnil => ?_⟩
    have := List.length_drop ▸ congrArg List.length hnil
    simp at this
    omega
  · next hge =>
    have hunread : (s.conns conn).unread = [] := List.drop_eq_nil_of_le (by omega)
    split at hrun
    · next heof =>
      cases hrun
      refine ⟨.refl hpos, ?_⟩
      rintro _ ⟨⟩
      exact ⟨hunread.symm, fun _ => heof⟩
    · next heof =>
      split at hrun
      · cases hrun
        exact ⟨.refl hpos, by rintro _ ⟨⟩⟩
      · next chunk hchunk =>
        split at hrun
        · next hsome =>
          cases hrun
          have hnew : ({ s.conns conn with got := (s.conns conn).got ++ chunk } : Conn).unread
              = chunk := by
            show ((s.conns conn).got ++ chunk).drop _ = chunk
            rw [List.drop_append_of_le_length hpos, show (s.conns conn).got.drop _ = [] from hunread,
              List.nil_append]
          refine ⟨⟨modifyConn_frame _, ?_⟩, ?_⟩
          · simp only [modifyConn_conns, if_pos]
            refine ⟨rfl, ⟨chunk, rfl, ?_, fun he => absurd he heof⟩, rfl, ?_, id⟩
            · rw [hunread, hnew]
            · simp only [List.length_append]
              omega
          · rintro _ ⟨⟩
            simp only [modifyConn_conns, if_pos]
            exact ⟨hnew.symm, fun hnil => absurd hnil hsome.1⟩
        · cases hrun
          refine ⟨⟨modifyConn_frame _, ?_⟩, ?_⟩
          · simp only [modifyConn_conns, if_pos]
            exact ⟨rfl, ⟨[], by simp [Conn.unread]⟩, rfl, hpos, fun _ => rfl⟩
          · rintro _ ⟨⟩
            simp only [modifyConn_conns, if_pos]
            exact ⟨hunread.symm, fun _ => trivial⟩

theorem reads_of_consume {n : Nat} {r : Unit}
    (hst : (netMachine serde daemon).Step (.consume conn n) s r s')
    (hn : n ≤ (s.conns conn).unread.length) (hpos : (s.conns conn).pos ≤ (s.conns conn).got.length) :
    s.Reads conn ((s.conns conn).unread.take n) s' ∧
      (s'.conns conn).unread = (s.conns conn).unread.drop n ∧
      (s'.conns conn).eof = (s.conns conn).eof := by
  obtain ⟨-, (w : NetWorld), hrun⟩ := hst
  cases hrun
  have hlen : n ≤ (s.conns conn).got.length - (s.conns conn).pos := by
    simpa [Conn.unread] using hn
  refine ⟨⟨modifyConn_frame _, ?_⟩, ?_⟩
  · simp only [modifyConn_conns, if_pos]
    refine ⟨rfl, ⟨[], by simp, ?_, fun _ => rfl⟩, ?_, ?_, id⟩
    · simp only [Conn.unread, List.append_nil]
      rw [← List.drop_drop]
      exact (List.take_append_drop ..).symm
    · rw [List.length_take_of_le hn]
    · show (s.conns conn).pos + n ≤ (s.conns conn).got.length
      omega
  · simp [Conn.unread, List.drop_drop]

/-- `lineBytes` finds the end of the line. -/
theorem lineBytes_spec (available : List UInt8) :
    (lineBytes available).1 ≤ available.length ∧
      ((lineBytes available).2 = true → IsLine (available.take (lineBytes available).1)) ∧
      ((lineBytes available).2 = false →
        (lineBytes available).1 = available.length ∧ newline ∉ available) := by
  unfold lineBytes
  cases h : available.findIdx? (· = newline) with
  | none =>
    refine ⟨le_rfl, by simp, fun _ => ⟨rfl, fun hmem => ?_⟩⟩
    have := List.findIdx?_eq_none_iff.1 h _ hmem
    simp at this
  | some i =>
    obtain ⟨hlt, hi, hbefore⟩ := List.findIdx?_eq_some_iff_getElem.1 h
    refine ⟨hlt, fun _ => ⟨available.take i, fun hmem => ?_, ?_⟩, by simp⟩
    · obtain ⟨j, hj, hget⟩ := List.mem_iff_getElem.1 hmem
      have hji : j < i := (List.length_take ▸ hj).trans_le (min_le_left ..)
      rw [List.getElem_take] at hget
      exact hbefore j hji (decide_eq_true hget)
    · show available.take (i + 1) = _
      rw [List.take_succ_eq_append_getElem hlt, of_decide_eq_true hi]

end

/-! ## Lines -/

section
variable {serde : Serde} {daemon : Daemon} {s s' : NetState} {conn : Nat}
  {es : List (Occ NetAct.Ret)}

/-- Nothing more will come on the connection, and all of it was consumed. -/
def Conn.Drained (c : Conn) : Prop := c.eof = true ∧ c.unread = []

theorem IsLine.append {buf buf' : List UInt8} (h : newline ∉ buf) (h' : IsLine buf') :
    IsLine (buf ++ buf') := by
  obtain ⟨body, hbody, rfl⟩ := h'
  exact ⟨buf ++ body, by simp [h, hbody], by simp⟩

theorem IsLine.ne_nil {buf : List UInt8} (h : IsLine buf) : buf ≠ [] := by
  obtain ⟨body, -, rfl⟩ := h
  simp

theorem IsLine.getLast? {buf : List UInt8} (h : IsLine buf) : buf.getLast? = some newline := by
  obtain ⟨body, -, rfl⟩ := h
  simp

/-- `read_until` on `take(limit)` consumes a line, or as much of one as the limit or the stream has. -/
theorem readUntil_spec {n limit : Nat} {buf : List UInt8} {res : Except Stop (List UInt8)}
    (hx : Exec (netMachine serde daemon) (readUntil conn n limit buf) s es res s')
    (hlimit : limit ≤ n) (hpos : (s.conns conn).pos ≤ (s.conns conn).got.length) :
    ∃ read, s.Reads conn read s' ∧ ((∃ kind, res = .error (.failed (.io kind)) ∧
        (⟨.fillBuf conn, .error kind⟩ : Occ NetAct.Ret) ∈ es) ∨
      res = .ok (buf ++ read) ∧ read.length ≤ limit ∧
        (IsLine read ∨ newline ∉ read ∧ (read.length = limit ∨ (s'.conns conn).Drained))) := by
  induction n generalizing limit buf s es with
  | zero =>
    obtain ⟨-, rfl, rfl⟩ := exec_ret_iff.1 hx
    exact ⟨[], .refl hpos, .inr ⟨by simp, Nat.zero_le _, .inr ⟨by simp, .inl (by simp; omega)⟩⟩⟩
  | succ n ih =>
    rw [readUntil] at hx
    split at hx
    · next hzero =>
      obtain ⟨-, rfl, rfl⟩ := exec_ret_iff.1 hx
      exact ⟨[], .refl hpos, .inr ⟨by simp, Nat.zero_le _, .inr ⟨by simp, .inl hzero.symm⟩⟩⟩
    · next hne =>
      obtain ⟨r, s₁, es₁, hfill, rfl, hk⟩ := exec_perform_bind_iff.1 hx
      obtain ⟨hreads₁, hchunk⟩ := reads_of_fillBuf hfill hpos
      cases r with
      | error kind =>
        obtain ⟨-, rfl, rfl⟩ := exec_ret_iff.1 hk
        exact ⟨[], hreads₁, .inl ⟨kind, rfl, List.mem_cons_self ..⟩⟩
      | ok chunk =>
        obtain ⟨hunread, heof⟩ := hchunk chunk rfl
        obtain ⟨hused, hdone, hopen⟩ := lineBytes_spec (chunk.take limit)
        replace hk : Exec _ (performNet (.consume conn (lineBytes (chunk.take limit)).1) >>= fun _ =>
          if (lineBytes (chunk.take limit)).2 || (lineBytes (chunk.take limit)).1 = 0 then
            pure (buf ++ (chunk.take limit).take (lineBytes (chunk.take limit)).1)
          else readUntil conn n (limit - (lineBytes (chunk.take limit)).1)
            (buf ++ (chunk.take limit).take (lineBytes (chunk.take limit)).1)) s₁ es₁ res s' := hk
        generalize lineBytes (chunk.take limit) = x at *
        obtain ⟨used, done⟩ := x
        dsimp only at *
        have hlen : used ≤ limit := hused.trans (List.length_take_le ..)
        obtain ⟨_, s₂, es₂, hconsume, rfl, hrest⟩ := exec_perform_bind_iff.1 hk
        clear hk
        obtain ⟨hreads₂, hunread₂, heof₂⟩ := reads_of_consume hconsume
          (by rw [← hunread]; exact hused.trans (List.length_take_le' ..)) hreads₁.conn.within
        have htake : (chunk.take limit).take used = chunk.take used := by
          rw [List.take_take, min_eq_left hlen]
        rw [← hunread] at hreads₂ hunread₂
        rw [htake] at hdone hrest
        have hreads := hreads₁.trans hreads₂
        rw [List.nil_append] at hreads
        have htakeLen : (chunk.take used).length = used :=
          List.length_take_of_le (hused.trans (List.length_take_le' ..))
        split at hrest
        · next hstop =>
          obtain ⟨-, rfl, rfl⟩ := exec_ret_iff.1 hrest
          refine ⟨_, hreads, .inr ⟨rfl, by omega, ?_⟩⟩
          cases done with
          | true => exact .inl (hdone rfl)
          | false =>
            obtain rfl : used = 0 := by simpa using hstop
            obtain ⟨hall, -⟩ := hopen rfl
            have hnil : chunk = [] := by
              have := List.eq_nil_of_length_eq_zero hall.symm
              exact (List.take_eq_nil_iff.1 this).resolve_left hne
            refine .inr ⟨by simp, .inr ⟨?_, ?_⟩⟩
            · rw [heof₂]
              exact heof hnil
            · rw [hunread₂, hnil]
              rfl
        · next hgo =>
          simp only [Bool.or_eq_true, decide_eq_true_eq, not_or, Bool.not_eq_true] at hgo
          obtain ⟨hall, hnone⟩ := hopen hgo.1
          have hnone' : newline ∉ chunk.take used := by
            rw [← htake]
            exact fun hmem => hnone (List.mem_of_mem_take hmem)
          obtain ⟨read, hread, hend⟩ := ih hrest (by omega) hreads₂.conn.within
          refine ⟨chunk.take used ++ read, hreads.trans hread, ?_⟩
          rcases hend with ⟨kind, rfl, hmem⟩ | ⟨rfl, hle, hend⟩
          · exact .inl ⟨kind, rfl, by simp [hmem]⟩
          · refine .inr ⟨by rw [List.append_assoc], ?_, ?_⟩
            · rw [List.length_append, htakeLen]
              omega
            · rcases hend with hline | ⟨hopen', hfull⟩
              · exact .inl (hline.append hnone')
              · refine .inr ⟨by simp [hnone', hopen'], hfull.imp_left fun h => ?_⟩
                rw [List.length_append, htakeLen, h]
                omega

/-- What is discarded is the rest of the line, if the stream does not end before. -/
theorem discardLine_spec {fuel : Nat} {res : Except Stop InboundLine}
    (hx : Exec (netMachine serde daemon) (discardLine conn fuel) s es res s')
    (hpos : (s.conns conn).pos ≤ (s.conns conn).got.length) :
    ∃ read, s.Reads conn read s' ∧ ((∃ kind, res = .error (.failed (.io kind)) ∧
        (⟨.fillBuf conn, .error kind⟩ : Occ NetAct.Ret) ∈ es) ∨
      (res = .error .running ∧ newline ∉ read ∧ fuel ≤ read.length) ∨
      (res = .error (.failed (.io .unexpectedEof)) ∧ newline ∉ read ∧ (s'.conns conn).Drained) ∨
      res = .ok .tooLong ∧ IsLine read) := by
  induction fuel generalizing s es with
  | zero =>
    obtain ⟨-, rfl, rfl⟩ := exec_ret_iff.1 hx
    exact ⟨[], .refl hpos, .inr (.inl ⟨rfl, by simp, Nat.zero_le _⟩)⟩
  | succ fuel ih =>
    obtain ⟨r, s₁, es₁, hfill, rfl, hk⟩ := exec_perform_bind_iff.1 hx
    obtain ⟨hreads₁, hchunk⟩ := reads_of_fillBuf hfill hpos
    cases r with
    | error kind =>
      obtain ⟨-, rfl, rfl⟩ := exec_ret_iff.1 hk
      exact ⟨[], hreads₁, .inl ⟨kind, rfl, List.mem_cons_self ..⟩⟩
    | ok chunk =>
      obtain ⟨hunread, heof⟩ := hchunk chunk rfl
      obtain ⟨hused, hdone, hopen⟩ := lineBytes_spec chunk
      replace hk : Exec _ (if chunk.isEmpty then Prog.fail (.failed (.io .unexpectedEof)) else
        performNet (.consume conn (lineBytes chunk).1) >>= fun _ =>
          if (lineBytes chunk).2 then pure .tooLong else discardLine conn fuel) s₁ es₁ res s' := hk
      generalize lineBytes chunk = x at *
      obtain ⟨used, done⟩ := x
      dsimp only at *
      split at hk
      · next hempty =>
        obtain rfl : chunk = [] := List.isEmpty_iff.1 hempty
        obtain ⟨-, rfl, rfl⟩ := exec_ret_iff.1 hk
        exact ⟨[], hreads₁, .inr (.inr (.inl ⟨rfl, by simp, heof rfl, hunread.symm⟩))⟩
      · next hsome =>
        obtain ⟨_, s₂, es₂, hconsume, rfl, hrest⟩ := exec_perform_bind_iff.1 hk
        obtain ⟨hreads₂, -, -⟩ := reads_of_consume hconsume (hunread ▸ hused) hreads₁.conn.within
        rw [← hunread] at hreads₂
        have hreads := hreads₁.trans hreads₂
        rw [List.nil_append] at hreads
        split at hrest
        · next hstop =>
          obtain ⟨-, rfl, rfl⟩ := exec_ret_iff.1 hrest
          exact ⟨_, hreads, .inr (.inr (.inr ⟨rfl, hdone hstop⟩))⟩
        · next hgo =>
          obtain ⟨hall, hnone⟩ := hopen (Bool.not_eq_true _ ▸ hgo)
          have hnone' : newline ∉ chunk.take used := fun hmem => hnone (List.mem_of_mem_take hmem)
          have hused : 0 < (chunk.take used).length := by
            rw [hall, List.take_length]
            exact List.length_pos_iff.2 fun hnil => hsome (List.isEmpty_iff.2 hnil)
          obtain ⟨read, hread, hend⟩ := ih hrest hreads₂.conn.within
          refine ⟨_, hreads.trans hread, ?_⟩
          rcases hend with ⟨kind, rfl, hmem⟩ | ⟨rfl, hopen', hle⟩ | ⟨rfl, hopen', hdrained⟩ |
            ⟨rfl, hline⟩
          · exact .inl ⟨kind, rfl, by simp [hmem]⟩
          · refine .inr (.inl ⟨rfl, by simp [hnone', hopen'], ?_⟩)
            rw [List.length_append]
            omega
          · exact .inr (.inr (.inl ⟨rfl, by simp [hnone', hopen'], hdrained⟩))
          · exact .inr (.inr (.inr ⟨rfl, hline.append hnone'⟩))

/-- What `read_inbound_line` says of the bytes it consumed. -/
inductive InboundLine.Says (limit : Nat) (c : Conn) : InboundLine → List UInt8 → Prop where
  | eof (h : c.Drained) : Says limit c .eof []
  | line {read : List UInt8} (h : IsLine read) (hlen : read.length ≤ limit) :
      Says limit c (.line read) read
  | cut {read : List UInt8} (h : newline ∉ read) (hsome : read ≠ []) (hlen : read.length < limit)
      (hend : c.Drained) : Says limit c (.line read) read
  | tooLong {read : List UInt8} (h : IsLine read) (hlen : limit < read.length) :
      Says limit c .tooLong read

/-- How `read_inbound_line` ends, with the bytes it consumed: the reading fails, or it does not end with
the fuel it has, or the stream ends in a line that is too long, or it answers a line. -/
inductive InboundLine.Ends (conn limit fuel : Nat) (es : List (Occ NetAct.Ret)) (c : Conn) :
    Except Stop InboundLine → List UInt8 → Prop where
  | failed {kind : IoErrorKind} {read : List UInt8}
      (h : (⟨.fillBuf conn, .error kind⟩ : Occ NetAct.Ret) ∈ es) :
      Ends conn limit fuel es c (.error (.failed (.io kind))) read
  | running {read : List UInt8} (hlimit : limit ≤ read.length) (hlen : fuel ≤ read.length) :
      Ends conn limit fuel es c (.error .running) read
  | ended {read : List UInt8} (h : newline ∉ read) (hlen : limit ≤ read.length) (hend : c.Drained) :
      Ends conn limit fuel es c (.error (.failed (.io .unexpectedEof))) read
  | answered {line : InboundLine} {read : List UInt8} (h : line.Says limit c read) :
      Ends conn limit fuel es c (.ok line) read

/-- **How `read_inbound_line` ends**. -/
theorem readInboundLine_ends {fuel limit : Nat} {res : Except Stop InboundLine}
    (hx : Exec (netMachine serde daemon) (readInboundLine fuel conn limit) s es res s')
    (hlimit : limit ≠ 0) (hpos : (s.conns conn).pos ≤ (s.conns conn).got.length) :
    ∃ read, s.Reads conn read s' ∧
      InboundLine.Ends conn limit fuel es (s'.conns conn) res read := by
  rcases exec_bind_iff.1 hx with ⟨e, rfl, he⟩ | ⟨buf, s₁, es₁, es₂, hread, hk, rfl⟩
  · obtain ⟨read, hreads, ⟨kind, hkind, hmem⟩ | ⟨hok, -⟩⟩ := readUntil_spec he le_rfl hpos
    · cases hkind
      exact ⟨read, hreads, .failed hmem⟩
    · cases hok
  · obtain ⟨read, hreads, ⟨kind, hkind, -⟩ | ⟨hok, hle, hend⟩⟩ := readUntil_spec hread le_rfl hpos
    · cases hkind
    · obtain rfl : buf = read := by simpa using hok
      split at hk
      · next hempty =>
        obtain rfl : buf = [] := List.isEmpty_iff.1 hempty
        obtain ⟨-, rfl, rfl⟩ := exec_ret_iff.1 hk
        refine ⟨_, hreads, .answered (.eof ?_)⟩
        rcases hend with hline | ⟨-, hfull | hdrained⟩
        · exact absurd rfl hline.ne_nil
        · exact absurd hfull.symm hlimit
        · exact hdrained
      · next hsome =>
        have hsome : buf ≠ [] := fun h => hsome (List.isEmpty_iff.2 h)
        split at hk
        · next hstop =>
          obtain ⟨-, rfl, rfl⟩ := exec_ret_iff.1 hk
          refine ⟨_, hreads, .answered ?_⟩
          rcases hend with hline | ⟨hopen, hfull⟩
          · exact .line hline hle
          · have hlt : buf.length < limit := by
              rcases Bool.or_eq_true_iff.1 hstop with hlast | hlt
              · exact absurd (List.mem_of_getLast? (of_decide_eq_true hlast)) hopen
              · exact of_decide_eq_true hlt
            exact .cut hopen hsome hlt (hfull.resolve_left hlt.ne)
        · next hgo =>
          simp only [Bool.or_eq_true, decide_eq_true_eq, not_or, not_lt] at hgo
          rcases hend with hline | ⟨hopen, -⟩
          · exact absurd hline.getLast? hgo.1
          · obtain ⟨read, hread', hend⟩ := discardLine_spec hk hreads.conn.within
            refine ⟨_, hreads.trans hread', ?_⟩
            rcases hend with ⟨kind, rfl, hmem⟩ | ⟨rfl, -, hlen⟩ | ⟨rfl, hopen', hdrained⟩ |
              ⟨rfl, hline⟩
            · exact .failed (List.mem_append_right _ hmem)
            · refine .running ?_ ?_ <;> rw [List.length_append] <;> omega
            · refine .ended (by simp [hopen, hopen']) ?_ hdrained
              rw [List.length_append]
              omega
            · refine .answered (.tooLong (hline.append hopen) ?_)
              have := List.length_pos_iff.2 hline.ne_nil
              rw [List.length_append]
              omega

/-- **What `read_inbound_line` consumes** is one line, which it answers unless it is too long, or what
is left of a stream that ended. -/
theorem readInboundLine_spec {fuel limit : Nat} {res : Except Stop InboundLine}
    (hx : Exec (netMachine serde daemon) (readInboundLine fuel conn limit) s es res s')
    (hlimit : limit ≠ 0) (hpos : (s.conns conn).pos ≤ (s.conns conn).got.length) :
    ∃ read, s.Reads conn read s' ∧ ((∃ kind, res = .error (.failed (.io kind))) ∨
      res = .error .running ∨ ∃ line, res = .ok line ∧ line.Says limit (s'.conns conn) read) := by
  obtain ⟨read, hreads, hends⟩ := readInboundLine_ends hx hlimit hpos
  refine ⟨read, hreads, ?_⟩
  cases hends with
  | failed => exact .inl ⟨_, rfl⟩
  | running => exact .inr (.inl rfl)
  | ended => exact .inl ⟨_, rfl⟩
  | answered h => exact .inr (.inr ⟨_, rfl, h⟩)

end

/-! ## The actions of a reading -/

/-- The action reads from the connection. -/
def NetAct.ReadsFrom (conn : Nat) : NetAct → Prop
  | fillBuf c | consume c _ => c = conn
  | _ => False

theorem only_io {α : Type} {P : NetAct → Prop} (r : Except IoErrorKind α) : (io r).Only P := by
  cases r <;> trivial

theorem only_ipcResult {α : Type} {P : NetAct → Prop} (r : Except IpcError α) :
    (ipcResult r).Only P := by
  cases r <;> trivial

theorem readUntil_only (conn n limit : Nat) (buf : List UInt8) :
    (readUntil conn n limit buf).Only (NetAct.ReadsFrom conn) := by
  induction n generalizing limit buf with
  | zero => trivial
  | succ n ih =>
    rw [readUntil]
    split
    · trivial
    · refine .bind (only_perform rfl) fun r => .bind (only_io r) fun chunk => ?_
      dsimp only
      generalize lineBytes (chunk.take limit) = x
      refine .bind (only_perform rfl) fun _ => ?_
      split
      · trivial
      · exact ih ..

theorem discardLine_only (conn fuel : Nat) :
    (discardLine conn fuel).Only (NetAct.ReadsFrom conn) := by
  induction fuel with
  | zero => trivial
  | succ fuel ih =>
    refine .bind (only_perform rfl) fun r => .bind (only_io r) fun chunk => ?_
    split
    · trivial
    · refine .bind (only_perform rfl) fun _ => ?_
      split
      · trivial
      · exact ih

theorem readInboundLine_only (fuel conn limit : Nat) :
    (readInboundLine fuel conn limit).Only (NetAct.ReadsFrom conn) := by
  refine .bind (readUntil_only ..) fun buf => ?_
  split
  · trivial
  · split
    · trivial
    · exact discardLine_only ..

theorem receive_only (serde : Serde) (fuel conn : Nat) :
    (receive serde fuel conn).Only (NetAct.ReadsFrom conn) := by
  refine .bind (readInboundLine_only ..) fun line => ?_
  cases line with
  | line buf => exact only_ipcResult _
  | eof | tooLong => trivial

/-! ## Round trips -/

/-- The action writes a request to the connection, or reads from it. -/
def NetAct.Exchanges (conn : Nat) (req : Request) : NetAct → Prop
  | write c (.request r) => c = conn ∧ r = req
  | write c .lineBreak | flush c => c = conn
  | a => a.ReadsFrom conn

theorem NetAct.ReadsFrom.exchanges {conn : Nat} {req : Request} {a : NetAct}
    (h : a.ReadsFrom conn) : a.Exchanges conn req := by
  cases a <;> first | exact h | exact h.elim

theorem roundTrip_only (serde : Serde) (fuel conn : Nat) (req : Request) :
    (roundTrip serde fuel conn req).Only (NetAct.Exchanges conn req) := by
  unfold roundTrip
  dsimp only
  split
  · trivial
  · exact .bind (only_perform ⟨rfl, rfl⟩) fun _ => .bind (only_io _) fun _ =>
      .bind (only_perform rfl) fun _ => .bind (only_io _) fun _ =>
      .bind (only_perform rfl) fun _ => .bind (only_io _) fun _ =>
      (receive_only ..).mono fun _ h => h.exchanges

section
variable {serde : Serde} {daemon : Daemon} {s s' : NetState} {conn : Nat}
  {es : List (Occ NetAct.Ret)}

theorem Request.count_line (req : Request) : (req.line serde).count newline = 1 := by
  rw [Request.line, List.count_append, List.count_eq_zero.2
    (newline_notMem_utf8 (serde.render_oneLine _))]
  simp

/-- More bytes are written to a connection. -/
def NetState.wrote (s : NetState) (conn : Nat) (bytes : List UInt8) : NetState :=
  s.modifyConn conn fun c => { c with sent := c.sent ++ bytes }

theorem NetState.wrote_wrote (bytes bytes' : List UInt8) :
    (s.wrote conn bytes).wrote conn bytes' = s.wrote conn (bytes ++ bytes') := by
  simp [NetState.wrote, List.append_assoc]

theorem NetState.wrote_conns (bytes : List UInt8) : (s.wrote conn bytes).conns conn =
    { s.conns conn with sent := (s.conns conn).sent ++ bytes } := by
  rw [NetState.wrote, modifyConn_conns, if_pos rfl]

/-- A write that succeeds adds its bytes. -/
theorem of_write {daemon : Daemon} {data : Payload}
    (hst : (netMachine serde daemon).Step (.write conn data) s (.ok ()) s') :
    s' = s.wrote conn (data.bytes serde) := by
  obtain ⟨-, (w : NetWorld), hrun⟩ := hst
  simp only [netMachine, NetAct.run] at hrun
  split at hrun <;> cases hrun
  rfl

/-- A write that fails adds some of its bytes. -/
theorem of_write_error {daemon : Daemon} {data : Payload} {kind : IoErrorKind}
    (hst : (netMachine serde daemon).Step (.write conn data) s (.error kind) s') :
    ∃ part, part <+: data.bytes serde ∧ s' = s.wrote conn part := by
  obtain ⟨-, (w : NetWorld), hrun⟩ := hst
  simp only [netMachine, NetAct.run] at hrun
  split at hrun <;> cases hrun
  exact ⟨_, List.take_prefix .., rfl⟩

theorem of_flush {daemon : Daemon} {r : Except IoErrorKind Unit}
    (hst : (netMachine serde daemon).Step (.flush conn) s r s') : s' = s := by
  obtain ⟨-, (w : NetWorld), hrun⟩ := hst
  exact (congrArg Prod.snd hrun).symm

theorem exec_ipcResult {α : Type} {M : Machine NetAct NetAct.Ret NetState} {r : Except IpcError α}
    {res : Except Stop α} (hx : Exec M (ipcResult r) s es res s') :
    res = r.mapError .failed ∧ s' = s := by
  cases r with
  | ok x =>
    obtain ⟨-, rfl, rfl⟩ := exec_ret_iff.1 hx
    exact ⟨rfl, rfl⟩
  | error e =>
    obtain ⟨-, rfl, rfl⟩ := exec_ret_iff.1 hx
    exact ⟨rfl, rfl⟩

/-- A result is no occurrence. -/
theorem occs_ipcResult {α : Type} {M : Machine NetAct NetAct.Ret NetState} {r : Except IpcError α}
    {res : Except Stop α} (hx : Exec M (ipcResult r) s es res s') : es = [] := by
  cases r <;> exact (exec_ret_iff.1 hx).1

/-- The occurrences of a request that was written. -/
def written (conn : Nat) (req : Request) : List (Occ NetAct.Ret) :=
  [⟨.write conn (.request req), .ok ()⟩, ⟨.write conn .lineBreak, .ok ()⟩, ⟨.flush conn, .ok ()⟩]

/-- The occurrences of a request that could not be written: the first operation that failed is the
last. -/
def WriteFails (conn : Nat) (req : Request) (kind : IoErrorKind) (es : List (Occ NetAct.Ret)) : Prop :=
  es = [⟨.write conn (.request req), .error kind⟩] ∨
    es = [⟨.write conn (.request req), .ok ()⟩, ⟨.write conn .lineBreak, .error kind⟩] ∨
    es = [⟨.write conn (.request req), .ok ()⟩, ⟨.write conn .lineBreak, .ok ()⟩,
      ⟨.flush conn, .error kind⟩]

/-- What a round trip can do: refuse the request, fail to write it, or write it and receive. -/
theorem roundTrip_cases {fuel : Nat} {req : Request} {res : Except Stop Json}
    (hx : Exec (netMachine serde daemon) (roundTrip serde fuel conn req) s es res s') :
    (maxRequestBytes < (req.line serde).length ∧
        res = .error (.failed (requestTooLong (utf8 (serde.render req.json)).length)) ∧ es = [] ∧
        s' = s) ∨
      (¬ maxRequestBytes < (req.line serde).length ∧
        ∃ kind, res = .error (.failed (.io kind)) ∧ WriteFails conn req kind es ∧
          ∃ part, part <+: req.line serde ∧ s' = s.wrote conn part) ∨
      ¬ maxRequestBytes < (req.line serde).length ∧
        ∃ s₁ es', s₁ = s.wrote conn (req.line serde) ∧ es = written conn req ++ es' ∧
          Trace (netMachine serde daemon) (fun _ e => e ∈ written conn req) s (written conn req) s₁ ∧
          Exec (netMachine serde daemon) (receive serde fuel conn) s₁ es' res s' := by
  unfold roundTrip at hx
  dsimp only at hx
  have hlen : (req.line serde).length = (utf8 (serde.render req.json)).length + 1 := by
    simp [Request.line]
  rw [hlen]
  split at hx
  · next hlong =>
    obtain ⟨rfl, rfl, rfl⟩ := exec_ret_iff.1 hx
    exact .inl ⟨hlong, rfl, rfl, rfl⟩
  · next hshort =>
    refine .inr ?_
    obtain ⟨r₁, s₁, es₁, hst₁, rfl, hk₁⟩ := exec_perform_bind_iff.1 hx
    cases r₁ with
    | error kind =>
      obtain ⟨rfl, rfl, rfl⟩ := exec_ret_iff.1 hk₁
      obtain ⟨part, hpart, rfl⟩ := of_write_error hst₁
      exact .inl ⟨hshort, kind, rfl, .inl rfl, part, hpart.trans (List.prefix_append ..), rfl⟩
    | ok _ =>
      obtain ⟨r₂, s₂, es₂, hst₂, rfl, hk₂⟩ := exec_perform_bind_iff.1 hk₁
      cases r₂ with
      | error kind =>
        obtain ⟨rfl, rfl, rfl⟩ := exec_ret_iff.1 hk₂
        obtain ⟨part, hpart, rfl⟩ := of_write_error hst₂
        refine .inl ⟨hshort, kind, rfl, .inr (.inl rfl), _, (List.prefix_append_right_inj _).2 hpart, ?_⟩
        rw [of_write hst₁, NetState.wrote_wrote]
        rfl
      | ok _ =>
        obtain ⟨r₃, s₃, es₃, hst₃, rfl, hk₃⟩ := exec_perform_bind_iff.1 hk₂
        cases r₃ with
        | error kind =>
          obtain ⟨rfl, rfl, rfl⟩ := exec_ret_iff.1 hk₃
          refine .inl ⟨hshort, kind, rfl, .inr (.inr rfl), _, List.prefix_rfl, ?_⟩
          rw [of_flush hst₃, of_write hst₂, of_write hst₁, NetState.wrote_wrote]
          rfl
        | ok _ =>
          have hs₃ : s₃ = s.wrote conn (req.line serde) := by
            rw [of_flush hst₃, of_write hst₂, of_write hst₁, NetState.wrote_wrote]
            rfl
          refine .inr ⟨hshort, s₃, es₃, hs₃, rfl, ?_, hk₃⟩
          exact .cons hst₁ (by simp [written]) (.cons hst₂ (by simp [written])
            (.cons hst₃ (by simp [written]) .nil))

end

end UnidriveMount
