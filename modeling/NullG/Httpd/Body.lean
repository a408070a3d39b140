/-
The body of a POST request (`read_header` and `read_postdata` of `httpd_http.c`).

`read_postdata` takes all that the buffer holds for the body. So a body is framed by its length just where no more than
the body has come in with the header.
-/

import NullG.Httpd.Query
import NullG.Net.Fgets

namespace NullG.Httpd

open NullG.Nsp NullG.Mail NullG.Net

/-! ### The header -/

/-- `tcp_fgets(line, sizeof(line) - 1, &conn->socket)` and `striprn(line)`. -/
def readLine (socket : TcpSocket) : Option (List Byte) × TcpSocket :=
  match tcpFgets 2047 socket with
  | (none, socket) => (none, socket)
  | (some line, socket) => (some (striprn (cstr (line.map Octet.byte))), socket)

/-- The first line that is not empty. -/
def firstLine : Nat → TcpSocket → Option (List Byte × TcpSocket)
  | 0, _ => none
  | fuel + 1, socket =>
      match readLine socket with
      | (none, _) => none
      | (some line, socket) => if line = [] then firstLine fuel socket else some (line, socket)

/-- The loop over the cookies of a header: a cookie with no `=` is answered with an error. -/
def cookiesOk : Nat → List Byte → Bool
  | 0, _ => false
  | n + 1, pt1 =>
      let pt2 := (pt1.dropWhile (· != ch '=')).drop 1
      let pt3 := ((pt2.dropWhile (· != ch ';')).drop 1).dropWhile (· == ch ' ')
      if !pt1.contains (ch '=') then false else if pt3 = [] then true else cookiesOk n pt3

/-- The name of a field, as a variable has it. -/
def headerName (name : List Byte) : List Byte := name.map fun c => if c = ch '-' then ch '_' else toupper c

/-- The loop of `read_header` over the fields: `CONTENT_LENGTH` behind them. -/
def readFields : Nat → Nat → TcpSocket → Option (Nat × TcpSocket)
  | 0, _, _ => none
  | fuel + 1, length, socket =>
      match readLine socket with
      | (none, _) => none
      | (some line, socket) =>
          let name := headerName (line.takeWhile (· != ch ':'))
          let value := ((line.dropWhile (· != ch ':')).drop 1).dropWhile (· == ch ' ')
          if line = [] then some (length, socket)
          else if !line.contains (ch ':') then none
          else if name = bytes "COOKIE" ∧ cookiesOk (value.length + 1) value = false then none
          else
            let length := if name = bytes "CONTENT_LENGTH" then (atoi value).toNat else length
            -- the name has taken the place of the line, which the loop looks at
            if name = [] then some (length, socket) else readFields fuel length socket

/-- What `read_header` has read when it looks for a body. -/
structure Header where
  method : List Byte
  uri : List Byte
  protocol : List Byte
  contentLength : Nat
  deriving DecidableEq

/-- `read_header`, up to the body: the header, and the socket behind the empty line. -/
def readHeader (socket : TcpSocket) : Option (Header × TcpSocket) :=
  match firstLine (socket.pending.length + 1) socket with
  | none => none
  | some (line, socket) =>
      match requestLine line with
      | none => none
      | some (method, uri, protocol) =>
          match readFields (socket.pending.length + 1) 0 socket with
          | none => none
          | some (length, socket) =>
              if method ≠ bytes "GET" ∧ method ≠ bytes "POST" then none
              else some (⟨method, uri, protocol, length⟩, socket)

/-! ### The body -/

/-- What becomes of a connection in `read_postdata`: it is closed, or `POSTRAWDATA` is there. -/
inductive Posted where
  | closed
  | read (data : List Byte) (socket : TcpSocket)

/-- The loop of `read_postdata`. -/
def recvBody : Nat → Nat → TcpSocket → Option (List Octet × TcpSocket)
  | _, 0, socket => some ([], socket)
  | 0, _, _ => none
  | fuel + 1, bytesleft, socket =>
      match tcpRecv socket bytesleft with
      | (none, _) => none
      | (some data, socket) =>
          match recvBody fuel (bytesleft - data.length) socket with
          | none => none
          | some (rest, socket) => some (data ++ rest, socket)

/-- `read_postdata`. -/
def readPostdata (maxplen postlen : Int) (socket : TcpSocket) : Posted :=
  if postlen < 0 then .closed
  else if postlen > maxplen then .closed
  else if (socket.recvbufsize : Int) - 2 > postlen then .closed
  else
    let bytesleft := (postlen - socket.recvbufsize).toNat
    match recvBody bytesleft bytesleft { socket with recvbuf := clearBuf, recvbufoffset := 0, recvbufsize := 0 } with
    | none => .closed
    | some (data, after) => .read ((socket.buffered ++ data).map Octet.byte) after

/-- What `read_header` does when it has read a header: only a POST request has a body. -/
def readBody (maxPostSize : Int) (header : Header) (socket : TcpSocket) : Posted :=
  if header.method = bytes "POST" then
    if header.contentLength < maxPostSize then readPostdata maxPostSize header.contentLength socket else .closed
  else .read [] socket

/-- A connection behind `accept`; `ssl` is the port. -/
def accepted (ssl : Bool) (recvs sslReads : List (List Byte)) : TcpSocket :=
  { recvs := recvs, sslReads := sslReads, ssl := ssl, usingTls := ssl }

/-- A request is read, and the connection is kept. -/
inductive Kept (maxPostSize : Int) : TcpSocket → TcpSocket → Prop where
  | request {socket behind socket' : TcpSocket} {header : Header} {data : List Byte} :
      readHeader socket = some (header, behind) → readBody maxPostSize header behind = .read data socket' →
      Kept maxPostSize socket socket'

/-- `POSTRAWDATA` is the first `n` bytes that were left, and what is left is behind them. -/
def Framed (n : Nat) (socket : TcpSocket) : Posted → Prop
  | .closed => False
  | .read data socket' =>
      data = (socket.pending.take n).map Octet.byte ∧ socket'.pending = socket.pending.drop n

/-! ### Lines of a header -/

section

variable {socket socket' : TcpSocket} {header : Header}

/-- A line is read of what is left. -/
theorem readLine_run (hsound : socket.Sound) : ∃ line socket', readLine socket = (line, socket') ∧ socket'.Sound ∧
    (line.isSome → socket'.pending.length < socket.pending.length) := by
  obtain ⟨socket', hsound', hrun⟩ := tcpFgets_run (show 0 < 2047 by decide) hsound
  unfold readLine
  split at hrun
  · rename_i hwhole
    obtain ⟨hcall, hsplit⟩ := hrun
    rw [hcall]
    refine ⟨_, socket', rfl, hsound', fun _ => ?_⟩
    have hne : firstPiece 2047 socket.pending ≠ [] := by
      intro hnil
      rw [hnil] at hwhole
      exact absurd hwhole (by decide)
    have hlen := congrArg List.length hsplit
    have hpos := List.length_pos_of_ne_nil hne
    rw [List.length_append] at hlen
    omega
  · obtain ⟨hcall, -⟩ := hrun
    rw [hcall]
    exact ⟨none, socket', rfl, hsound', fun h => by cases h⟩

theorem firstLine_sound {fuel : Nat} {line : List Byte} (hsound : socket.Sound)
    (h : firstLine fuel socket = some (line, socket')) : socket'.Sound := by
  induction fuel generalizing socket with
  | zero => cases h
  | succ fuel ih =>
      obtain ⟨read, after, hread, hafter, -⟩ := readLine_run hsound
      unfold firstLine at h
      rw [hread] at h
      cases read with
      | none => cases h
      | some first =>
          dsimp only at h
          split at h
          · exact ih hafter h
          · cases h
            exact hafter

theorem readFields_sound {fuel length n : Nat} (hsound : socket.Sound)
    (h : readFields fuel length socket = some (n, socket')) : socket'.Sound := by
  induction fuel generalizing socket length with
  | zero => cases h
  | succ fuel ih =>
      obtain ⟨read, after, hread, hafter, -⟩ := readLine_run hsound
      unfold readFields at h
      rw [hread] at h
      cases read with
      | none => cases h
      | some line =>
          dsimp only at h
          split at h
          · cases h
            exact hafter
          · split at h
            · cases h
            · split at h
              · cases h
              · split at h
                · cases h
                  exact hafter
                · exact ih hafter h

theorem readHeader_sound (hsound : socket.Sound) (h : readHeader socket = some (header, socket')) : socket'.Sound := by
  unfold readHeader at h
  cases hfirst : firstLine (socket.pending.length + 1) socket with
  | none =>
      rw [hfirst] at h
      cases h
  | some first =>
      obtain ⟨line, after⟩ := first
      have hafter := firstLine_sound hsound hfirst
      rw [hfirst] at h
      dsimp only at h
      split at h
      · cases h
      · split at h
        · cases h
        · rename_i hfields
          split at h
          · cases h
          · cases h
            exact readFields_sound hafter hfields

/-! ### The body -/

theorem sameBuffer_refl (socket : TcpSocket) : SameBuffer socket socket := ⟨rfl, rfl, rfl, rfl, rfl⟩

theorem sameBuffer_trans {s t u : TcpSocket} (h : SameBuffer s t) (h' : SameBuffer t u) : SameBuffer s u :=
  ⟨h'.ssl.trans h.ssl, h'.usingTls.trans h.usingTls, h'.recvbufsize.trans h.recvbufsize,
    h'.recvbufoffset.trans h.recvbufoffset, h'.recvbuf.trans h.recvbuf⟩

/-- A round of the loop. -/
theorem recvBody_succ (fuel bytesleft : Nat) (socket : TcpSocket) :
    recvBody (fuel + 1) (bytesleft + 1) socket =
      match tcpRecv socket (bytesleft + 1) with
      | (none, _) => none
      | (some data, socket) =>
          match recvBody fuel (bytesleft + 1 - data.length) socket with
          | none => none
          | some (rest, socket) => some (data ++ rest, socket) := by
  rw [recvBody]
  exact Nat.succ_ne_zero bytesleft

/-- The rest of a body is what comes next. -/
theorem recvBody_run {fuel bytesleft : Nat} (hfuel : bytesleft ≤ fuel) (hleft : bytesleft ≤ socket.incoming.length) :
    ∃ socket', recvBody fuel bytesleft socket = some (socket.incoming.take bytesleft, socket') ∧
      socket'.incoming = socket.incoming.drop bytesleft ∧ SameBuffer socket socket' := by
  induction fuel generalizing bytesleft socket with
  | zero =>
      obtain rfl := Nat.le_zero.mp hfuel
      exact ⟨socket, rfl, rfl, sameBuffer_refl socket⟩
  | succ fuel ih =>
      cases bytesleft with
      | zero => exact ⟨socket, rfl, rfl, sameBuffer_refl socket⟩
      | succ bytesleft =>
          rcases tcpRecv_run socket (Nat.succ_pos bytesleft) with ⟨hnone, -⟩ | ⟨data, after, hrun, hne, hle, hdata, hsame⟩
          · rw [hnone] at hleft
            cases hleft
          · have hpos := List.length_pos_of_ne_nil hne
            rw [hdata, List.length_append] at hleft
            have hfuel : bytesleft + 1 - data.length ≤ fuel := by omega
            have hleft' : bytesleft + 1 - data.length ≤ after.incoming.length := by omega
            obtain ⟨socket', hrest, hbehind, hsame'⟩ := ih hfuel hleft'
            refine ⟨socket', ?_, ?_, ?_⟩
            · rw [recvBody_succ, hrun]
              dsimp only
              rw [hrest, hdata, List.take_append, List.take_of_length_le hle]
            · rw [hbehind, hdata, List.drop_append, List.drop_of_length_le hle, List.nil_append]
            · exact sameBuffer_trans hsame hsame'

/-- No more is received than is asked for. -/
theorem recvBody_same {fuel bytesleft : Nat} {data : List Octet} (h : recvBody fuel bytesleft socket = some (data, socket')) :
    SameBuffer socket socket' := by
  induction fuel generalizing bytesleft socket data with
  | zero =>
      cases bytesleft with
      | zero =>
          cases h
          exact sameBuffer_refl _
      | succ bytesleft => cases h
  | succ fuel ih =>
      cases bytesleft with
      | zero =>
          cases h
          exact sameBuffer_refl _
      | succ bytesleft =>
          rcases tcpRecv_run socket (Nat.succ_pos bytesleft) with ⟨-, after, hrun, -⟩ | ⟨first, after, hrun, -, -, -, hsame⟩
          · rw [recvBody_succ, hrun] at h
            cases h
          · rw [recvBody_succ, hrun] at h
            dsimp only at h
            split at h
            · cases h
            · rename_i rest behind hrest
              cases h
              exact sameBuffer_trans hsame (ih hrest)

/-- The socket with an empty buffer, as `read_postdata` leaves it. -/
theorem readPostdata_sound {maxplen postlen : Int} {data : List Byte}
    (h : readPostdata maxplen postlen socket = .read data socket') : socket'.Sound := by
  unfold readPostdata at h
  split at h
  · cases h
  · split at h
    · cases h
    · split at h
      · cases h
      · dsimp only at h
        split at h
        · cases h
        · rename_i rest after hbody
          cases h
          have hsame := recvBody_same hbody
          constructor
          · rw [hsame.recvbuf]
            exact clearBuf_length
          · rw [hsame.recvbufoffset, hsame.recvbufsize]
            exact Nat.zero_le _

/-- A body of which the buffer holds no more than there is of it is read as it was sent. -/
theorem readPostdata_framed {limit : Int} {n : Nat} (hsound : socket.Sound) (hlimit : n < limit)
    (hbody : n ≤ socket.pending.length) (hsize : socket.recvbufsize ≤ n) :
    Framed n socket (readPostdata limit n socket) := by
  have hlen := buffered_length hsound
  have hpending : socket.pending = socket.buffered ++ socket.incoming := rfl
  have hleft : ((n : Int) - socket.recvbufsize).toNat = n - socket.recvbufsize := by omega
  rw [hpending, List.length_append, hlen] at hbody
  obtain ⟨socket', hrun, hbehind, hsame⟩ := @recvBody_run
    { socket with recvbuf := clearBuf, recvbufoffset := 0, recvbufsize := 0 } (n - socket.recvbufsize) _ (Nat.le_refl _)
    (show n - socket.recvbufsize ≤ socket.incoming.length by omega)
  unfold readPostdata
  rw [if_neg (by omega), if_neg (by omega), if_neg (by omega)]
  dsimp only
  rw [hleft, hrun]
  constructor
  · rw [hpending, List.take_append, List.take_of_length_le (hlen.trans_le hsize), hlen]
    rfl
  · have hempty := buffered_of_empty hsame.recvbufsize
    rw [TcpSocket.pending, hempty, hbehind, hpending, List.drop_append, List.drop_of_length_le (hlen.trans_le hsize), hlen]
    rfl

/-- What the buffer holds is all taken for the body. -/
theorem size_of_framed {limit : Int} {n : Nat} (hsound : socket.Sound) (h : Framed n socket (readPostdata limit n socket)) :
    socket.recvbufsize ≤ n := by
  have hlen := buffered_length hsound
  unfold readPostdata at h
  split at h
  · cases h
  · split at h
    · cases h
    · split at h
      · cases h
      · dsimp only at h
        split at h
        · cases h
        · have hdata := congrArg List.length h.1
          simp only [List.length_map, List.length_append, List.length_take, hlen] at hdata
          omega

/-! ### Connections -/

theorem kept_sound {limit : Int} (hsound : socket.Sound) (h : Kept limit socket socket') : socket'.Sound := by
  cases h with
  | request hread hbody =>
      have hbehind := readHeader_sound hsound hread
      unfold readBody at hbody
      split at hbody
      · split at hbody
        · exact readPostdata_sound hbody
        · cases hbody
      · cases hbody
        exact hbehind

theorem reached_sound {limit : Int} {ssl : Bool} {recvs sslReads : List (List Byte)}
    (h : Relation.ReflTransGen (Kept limit) (accepted ssl recvs sslReads) socket) : socket.Sound := by
  induction h with
  | refl => exact ⟨clearBuf_length, Nat.zero_le _⟩
  | tail _ hkept ih => exact kept_sound ih hkept

/-- On a connection on which any packets arrive, in whatever state the requests before have left it: the body of a POST
request that is there is framed by its length just where the buffer holds no more than the body behind the header. -/
theorem body_framed_iff {limit : Int} {ssl : Bool} {recvs sslReads : List (List Byte)}
    (hreached : Relation.ReflTransGen (Kept limit) (accepted ssl recvs sslReads) socket)
    (hread : readHeader socket = some (header, socket')) (hmethod : header.method = bytes "POST")
    (hlimit : header.contentLength < limit) (hbody : header.contentLength ≤ socket'.pending.length) :
    Framed header.contentLength socket' (readBody limit header socket') ↔
      socket'.recvbufsize ≤ header.contentLength := by
  have hsound := readHeader_sound (reached_sound hreached) hread
  unfold readBody
  rw [if_pos hmethod, if_pos hlimit]
  constructor
  · exact size_of_framed hsound
  · exact readPostdata_framed hsound hlimit hbody

/-- A request whose body is the byte `a`. -/
def postHeader : Header := ⟨bytes "POST", bytes "/", bytes "HTTP/1.1", 1⟩

/-- A connection on which the request comes in one packet with `more`. -/
def postSocket (more : String) : TcpSocket :=
  accepted false [bytes "POST / HTTP/1.1\r\nContent-Length: 1\r\n\r\na" ++ bytes more] []

theorem postHeader_read (more : String) (size : Nat)
    (h : (readHeader (postSocket more)).map (fun r => (r.1, r.2.recvbufsize, r.2.pending.length)) =
      some (postHeader, size, size)) :
    ∃ socket', readHeader (postSocket more) = some (postHeader, socket') ∧ socket'.recvbufsize = size ∧
      socket'.pending.length = size := by
  obtain ⟨⟨header, socket'⟩, hread, heq⟩ := Option.map_eq_some_iff.mp h
  obtain ⟨rfl, hsize, hpending⟩ : header = postHeader ∧ socket'.recvbufsize = size ∧ socket'.pending.length = size := by
    simpa using heq
  exact ⟨socket', hread, hsize, hpending⟩

theorem body_framed_alone : ∃ socket', readHeader (postSocket "") = some (postHeader, socket') ∧
    Framed 1 socket' (readBody 100 postHeader socket') := by
  obtain ⟨socket', hread, hsize, hpending⟩ := postHeader_read "" 1 (by decide +kernel)
  have hiff := @body_framed_iff (postSocket "") socket' postHeader 100 false _ [] .refl hread (by decide) (by decide)
    (Nat.le_of_eq hpending.symm)
  exact ⟨socket', hread, hiff.mpr (Nat.le_of_eq hsize)⟩

/-- The byte behind the body is the first one of the next request. -/
theorem body_notFramed : ∃ socket', readHeader (postSocket "G") = some (postHeader, socket') ∧
    postHeader.method = bytes "POST" ∧ (postHeader.contentLength : Int) < 100 ∧
    postHeader.contentLength ≤ socket'.pending.length ∧ ¬ Framed 1 socket' (readBody 100 postHeader socket') := by
  obtain ⟨socket', hread, hsize, hpending⟩ := postHeader_read "G" 2 (by decide +kernel)
  have hsound : socket'.Sound := readHeader_sound ⟨clearBuf_length, Nat.zero_le _⟩ hread
  refine ⟨socket', hread, by decide, by decide, hpending ▸ by decide, fun hframed => ?_⟩
  have hle : socket'.recvbufsize ≤ 1 := @size_of_framed socket' 100 1 hsound hframed
  rw [hsize] at hle
  exact absurd hle (by decide)

end

end NullG.Httpd
