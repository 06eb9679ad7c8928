import Mathlib
import Statsdcc.Lib.Bytes

/-!
# The UDP server

`UDPServer::listen` reads one datagram at a time into a buffer, and gives the
lines of the C string in that buffer to its consumer.
-/

open Bytes

namespace Statsdcc

/-- `MAX_MSG_SIZE` -/
def maxMsgSize : ℕ := 65536

/-- One iteration of `listen`: the strings given to `consume` for a datagram. -/
def UdpServer.listen (datagram : Bytes) : List Bytes :=
  let buff := datagram.take maxMsgSize
  getlines (cStr buff)

/-- `listen` reads the lines of a part of the datagram. -/
theorem UdpServer.part_of_listen (datagram : Bytes) :
    ∃ s, s <+: datagram ∧ listen datagram = getlines s :=
  ⟨_, (List.takeWhile_prefix _).trans (List.take_prefix _ _), rfl⟩

end Statsdcc
