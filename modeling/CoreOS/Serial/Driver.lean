import CoreOS.Kb.Driver
import CoreOS.Lib.Runs

/-!
# The serial port

`serial_isr` and `serial_write`, and what the driver of the controller does with a packet.

Both buffers are arrays of `int`, one for each byte, and both are given to functions that go through
them byte by byte: `tuxctl_handle_packet` is called with the receive buffer as an array of
`unsigned char`, and `memcpy` fills the transmit buffer.  `intByte` is such an array as memory, with
the least significant byte of an `int` first.

What the driver has given out is part of the state: the bytes sent, the packets and the keys handed
on.  The codes of the packets are in a header that is not among the sources, so they are a
parameter.
-/

namespace CoreOS
namespace Serial

/-- `RX_PACKET_SIZE`. -/
def rxPacketSize : ℕ := 3

/-- `TX_BUFFER_SIZE`. -/
def txBufferSize : ℕ := 16

/-- The three bytes of a packet. -/
structure Packet where
  a : BitVec 8
  b : BitVec 8
  c : BitVec 8
  deriving DecidableEq

/-- The codes: `MTCP_BIOC_EVENT`, `MTCP_RESET`, `MTCP_ACK` and `MTCP_BIOC_ON`. -/
structure Mtcp where
  biocEvent : BitVec 8
  reset : BitVec 8
  ack : BitVec 8
  biocOn : BitVec 8

/-- The variables of the driver, and what it has given out so far. -/
structure State where
  rxInd : ℕ
  rxBuf : ℕ → BitVec 32
  txInd : BitVec 32
  txDatLen : BitVec 32
  txBuf : ℕ → BitVec 32
  busy : Bool
  buttonState : BitVec 8
  oldButtonState : BitVec 8
  /-- The packets given to `tuxctl_handle_packet`. -/
  packets : List Packet
  /-- The bytes written to the port. -/
  sent : List (BitVec 8)
  /-- The keys given to `term_key_handler`. -/
  keys : List Kb.KeyT
  /-- How often `serial_write` has been called with something to write. -/
  writes : ℕ
  /-- An interrupt handler waits for `busy`, which nothing can clear then. -/
  hung : Bool
  /-- An element outside of `tx_buf` has been used. -/
  oob : Bool

/-- The state at boot. -/
def boot : State where
  rxInd := 0
  rxBuf := fun _ => 0
  txInd := 0
  txDatLen := 0
  txBuf := fun _ => 0
  busy := false
  buttonState := 0xFF
  oldButtonState := 0xFF
  packets := []
  sent := []
  keys := []
  writes := 0
  hung := false
  oob := false

/-! ## Arrays of `int` as memory -/

/-- Byte `j` of an array. -/
def intByte (a : ℕ → BitVec 32) (j : ℕ) : BitVec 8 := (a (j / 4)).extractLsb' (8 * (j % 4)) 8

/-- The packet at the front of an array. -/
def packetAt (a : ℕ → BitVec 32) : Packet := ⟨intByte a 0, intByte a 1, intByte a 2⟩

/-- `memcpy` of `n` bytes to the front of an array. -/
def memcpy (a : ℕ → BitVec 32) (buf : ℕ → BitVec 8) (n : ℕ) : ℕ → BitVec 32 := fun i =>
  let byte (j : ℕ) : BitVec 8 := if j < n then buf j else intByte a j
  byte (4 * i + 3) ++ byte (4 * i + 2) ++ byte (4 * i + 1) ++ byte (4 * i)

/-! ## Sending -/

namespace State

/-- `outb` to the port: the lowest byte is written. -/
def outb (s : State) (data : BitVec 32) : State := { s with sent := s.sent ++ [data.setWidth 8] }

/-- `serial_write`. -/
def serialWrite (s : State) (buf : ℕ → BitVec 8) (size : BitVec 32) : State :=
  if (txBufferSize : ℤ) ≤ size.toInt then s
  else
    let txBuf := memcpy s.txBuf buf size.toNat
    { s with
      txBuf := txBuf
      txDatLen := size
      txInd := 1
      writes := s.writes + 1
      oob := s.oob || decide (4 * txBufferSize < size.toNat) }.outb (txBuf 0)

/-- The second half of `serial_isr`. -/
def transmit (s : State) : State :=
  if s.txInd = s.txDatLen then s
  else
    { s with
      txInd := s.txInd + 1
      oob := s.oob || decide (txBufferSize ≤ s.txInd.toNat) }.outb (s.txBuf s.txInd.toNat)

/-! ## Receiving -/

variable (m : Mtcp)

/-- `tuxctl_ioctl(TUX_INIT, 0)`. -/
def tuxInit (s : State) : State :=
  if s.busy then { s with hung := true }
  else { s with busy := true }.serialWrite (fun _ => m.biocOn) 1

/-- The key that stands for a direction, of which there must be one only. -/
def directionKey (buttonState : BitVec 8) : List Kb.KeyT :=
  let direction := (buttonState >>> 4) &&& 0x0F
  if direction = 0x01 then [Kb.chP 'w']
  else if direction = 0x02 then [Kb.chP 's']
  else if direction = 0x08 then [Kb.chP 'd']
  else if direction = 0x04 then [Kb.chP 'a']
  else []

/-- `tuxctl_handle_packet`. -/
def tuxctlHandlePacket (s : State) (packet : Packet) : State :=
  let s := { s with packets := s.packets ++ [packet] }
  if packet.a = m.biocEvent then
    let c := packet.c
    let buttonState :=
      (((c &&& 0x09) ||| ((c &&& 0x04) >>> 1) ||| ((c &&& 0x02) <<< 1)) <<< 4) ||| (packet.b &&& 0x0F)
    { s with
      oldButtonState := s.buttonState
      buttonState := buttonState
      keys := s.keys ++ directionKey buttonState }
  else if packet.a = m.reset then s.tuxInit m
  else if packet.a = m.ack then { s with busy := false }
  else s

/-- The first half of `serial_isr`: `inb` extends the byte with zeros. -/
def receive (s : State) (data : BitVec 8) : State :=
  let rxBuf := Function.update s.rxBuf s.rxInd (data.setWidth 32)
  let s := { s with rxBuf := rxBuf, rxInd := s.rxInd + 1 }
  if s.rxInd = rxPacketSize then { s with rxInd := 0 }.tuxctlHandlePacket m (packetAt rxBuf)
  else s

end State

/-! ## Interrupts -/

/-- What the port shows during an interrupt: the status for `data_ready`, the byte that has arrived, if
one has, and the status for `transmit_empty`. -/
structure Uart where
  status : BitVec 8
  data : BitVec 8
  status' : BitVec 8

/-- `data_ready`. -/
def Uart.dataReady (u : Uart) : Bool := u.status &&& 0x01 ≠ 0

/-- `transmit_empty`. -/
def Uart.transmitEmpty (u : Uart) : Bool := u.status' &&& 0x20 ≠ 0

namespace State

/-- `serial_isr` up to `transmit_empty`. -/
def afterReceive (m : Mtcp) (s : State) (u : Uart) : State :=
  if u.dataReady then s.receive m u.data else s

/-- `serial_isr`. -/
def serialIsr (m : Mtcp) (s : State) (u : Uart) : State :=
  let s := s.afterReceive m u
  if s.hung then s else if u.transmitEmpty then s.transmit else s

end State

/-- An interrupt, or a call of `serial_write` from elsewhere, which sets `busy` first. -/
inductive Op where
  | isr (u : Uart)
  | write (buf : ℕ → BitVec 8) (size : BitVec 32)

/-- The state after an operation. -/
def step (m : Mtcp) (s : State) (o : Op) : State :=
  if s.hung then s
  else
    match o with
    | .isr u => s.serialIsr m u
    | .write buf size => { s with busy := true }.serialWrite buf size

section step

variable {m : Mtcp} {s : State}

/-- A driver that waits for `busy` does nothing else. -/
theorem step_of_hung (h : s.hung = true) (o : Op) : step m s o = s := if_pos h

theorem step_isr (h : s.hung = false) (u : Uart) : step m s (.isr u) = s.serialIsr m u :=
  if_neg (Bool.eq_false_iff.mp h)

theorem step_write (h : s.hung = false) (buf : ℕ → BitVec 8) (size : BitVec 32) :
    step m s (.write buf size) = { s with busy := true }.serialWrite buf size :=
  if_neg (Bool.eq_false_iff.mp h)

end step

end Serial
end CoreOS
