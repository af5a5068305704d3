import SmartWatch.Lib.Polling

/-! The blocking send that `ch32v30x_spi.c` adds, and `WriteData` on top of it. A
pointer into the buffer is an offset from its start, and `memory` goes on behind
the end of the buffer. -/

namespace SmartWatch

/-- `SPI_CTLR1_DFF`. -/
def spiCtlr1Dff : UInt16 := 0x0800

/-- A write to the data register, with where its value is read from. -/
structure DataWrite where
  offset : Nat
  halfword : Bool
  value : UInt16
deriving DecidableEq, Repr

/-- The bytes that a write hands over, as a little-endian memory has them. -/
def DataWrite.bytes (write : DataWrite) : List UInt8 :=
  if write.halfword then [write.value.toUInt8, (write.value >>> 8).toUInt8] else [write.value.toUInt8]

/-- `*pTxBuffer`. -/
def loadByte (memory : Nat → UInt8) (offset : Nat) : DataWrite :=
  { offset, halfword := false, value := (memory offset).toUInt16 }

/-- `*((uint16_t*)pTxBuffer)`, on a little-endian processor. -/
def loadHalfword (memory : Nat → UInt8) (offset : Nat) : DataWrite :=
  { offset, halfword := true, value := (memory (offset + 1)).toUInt16 <<< 8 ||| (memory offset).toUInt16 }

structure Sending where
  len : UInt8
  pTxBuffer : Nat := 0
  written : List DataWrite := []
deriving DecidableEq, Repr

/-- The body of the loop behind the wait for TXE. `1 << SPI_CTLR1_DFF` shifts by
0x0800, which is undefined; `shift` is what it gives. The cast in the 16-bit branch
applies to the value of `pTxBuffer++`, so the pointer moves by one byte there too. -/
def sendTurn (shift : UInt32) (ctlr1 : UInt16) (memory : Nat → UInt8) (s : Sending) : Sending :=
  if ctlr1.toUInt32 &&& shift ≠ 0 then
    { len := s.len - 1 - 1, pTxBuffer := s.pTxBuffer + 1, written := s.written ++ [loadHalfword memory s.pTxBuffer] }
  else
    { len := s.len - 1, pTxBuffer := s.pTxBuffer + 1, written := s.written ++ [loadByte memory s.pTxBuffer] }

/-- `SPI_SendData` after the given number of reads of the status register. -/
def spiSendData (shift : UInt32) (ctlr1 : UInt16) (memory : Nat → UInt8) (txe : Nat → Bool) (len : UInt8) : Nat → Sending :=
  Polling.after (fun s => s.len == 0) (sendTurn shift ctlr1 memory) txe { len }

/-- `WriteData` hands its `size_t` over as a `uint8_t`. -/
def writeDataSend (shift : UInt32) (ctlr1 : UInt16) (memory : Nat → UInt8) (txe : Nat → Bool) (buffSize : Nat) :
    Nat → Sending :=
  spiSendData shift ctlr1 memory txe (UInt8.ofNat buffSize)

end SmartWatch
