/-
A connection of a server (`nullg.h`).

The model keeps a list of the lines that `tcp_fgets` has returned, each with the `using_tls` that
held then, and for every handshake that was completed the `recvbufsize` that it found.
-/

import NullG.Net.Fgets
import NullG.Nsp.Value

namespace NullG.Net

open NullG.Nsp

/-- `CONN`, as far as the mail servers read it. -/
structure Conn where
  socket : TcpSocket
  state : Nat := 0
  reads : List (Bool × List Octet) := []
  shakes : List Nat := []
  /-- what was sent, call by call -/
  sent : List (List Byte) := []

/-- `tcp_fgets(line, max, &conn->socket)`: the line as a C string, or `none` for -1. -/
def Conn.fgets (conn : Conn) (max : Nat) : Option (List Byte) × Conn :=
  match tcpFgets max conn.socket with
  | (none, socket) => (none, { conn with socket := socket })
  | (some line, socket) =>
      (some (cstr (line.map Octet.byte)),
        { conn with socket := socket, reads := conn.reads ++ [(socket.usingTls, line)] })

/-- `ssl_accept(&conn->socket)`. -/
def Conn.accept (conn : Conn) (outcome : Handshake) : Conn :=
  let socket := sslAccept outcome conn.socket
  { conn with
    socket := socket
    shakes :=
      if socket.usingTls && !conn.socket.usingTls then conn.shakes ++ [conn.socket.recvbufsize]
      else conn.shakes }

/-- `tcp_send(&conn->socket, text, ...)`. -/
def Conn.send (conn : Conn) (text : List Byte) : Conn := { conn with sent := conn.sent ++ [text] }

/-- `tcp_fprintf(&conn->socket, "%s", text)`. -/
def Conn.fprintf (conn : Conn) (text : List Byte) : Conn := conn.send (text.take 2046)

/-- How many bytes the client has yet to send. -/
def Conn.left (conn : Conn) : Nat :=
  conn.socket.recvbufsize + conn.socket.recvs.flatten.length + conn.socket.sslReads.flatten.length

end NullG.Net
