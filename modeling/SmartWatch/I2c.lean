/-! The register reads of `MPU6050.c` against the I2C peripheral. A step is one
statement of the driver or the completion of a byte on the bus, in any order. The
ACK bit counts when a byte completes, the data register and the shift register hold
one byte each and the bus stretches when both are full, and STOP takes effect after
the byte in progress. -/

namespace SmartWatch

/-- The two reads, with the number of bytes they are for. -/
inductive RegisterRead where
  | mpuReadByte
  | mpuReadLen (len : UInt8)
deriving DecidableEq, Repr

namespace RegisterRead

def len : RegisterRead → Nat
  | mpuReadByte => 1
  | mpuReadLen len => len.toNat

/-- Whether the loop disables ACK before it reads byte `i`: `i == (len - 2)` in
`int` arithmetic, which `MPU_Read_Byte` does not have. -/
def disarms : RegisterRead → Nat → Bool
  | mpuReadByte, _ => false
  | mpuReadLen len, i => (i : Int) = (len.toNat : Int) - 2

end RegisterRead

/-- The statement the driver is at. -/
inductive I2cPc where
  /-- `I2C_AcknowledgeConfig(I2C2, ENABLE)` and the addressing behind it. -/
  | start
  /-- The waits until the address is acknowledged for reading. -/
  | addressing
  /-- `while (i < len)` and the test of RXNE. -/
  | polling
  /-- `I2C_AcknowledgeConfig(I2C2, DISABLE)`. -/
  | disarming
  /-- `buf[i] = I2C_ReceiveData(I2C2); i++`. -/
  | receiving
  /-- `I2C_GenerateSTOP(I2C2, ENABLE)`. -/
  | stopping
  | done
deriving DecidableEq, Repr

/-- The driver, the peripheral and the bus. `acks` is what the master has answered
to each byte, and `streaming` says that the slave goes on sending. -/
structure I2c where
  pc : I2cPc := .start
  i : Nat := 0
  buf : List UInt8 := []
  ack : Bool
  stop : Bool := false
  dataRegister : Option UInt8 := none
  shiftRegister : Option UInt8 := none
  streaming : Bool := false
  acks : List Bool := []
deriving DecidableEq, Repr

inductive I2cEvent where
  | driver
  | byte
deriving DecidableEq, Repr

def I2c.driver (read : RegisterRead) (s : I2c) : Option I2c :=
  match s.pc with
  | .start => some { s with ack := true, pc := .addressing }
  | .addressing => some { s with streaming := true, pc := .polling }
  | .polling =>
    if s.i < read.len then
      if s.dataRegister.isSome then some { s with pc := if read.disarms s.i then .disarming else .receiving }
      else some s
    else
      some { s with pc := .stopping }
  | .disarming => some { s with ack := false, pc := .receiving }
  | .receiving => s.dataRegister.map fun byte =>
    { s with buf := s.buf ++ [byte], i := s.i + 1, pc := .polling
             dataRegister := s.shiftRegister, shiftRegister := none }
  -- A stretched bus has no byte in progress.
  | .stopping => some { s with stop := true, pc := .done, streaming := s.streaming && s.shiftRegister.isNone }
  | .done => none

/-- The byte in progress completes, unless the bus is stretched. -/
def I2c.byte (stream : Nat → UInt8) (s : I2c) : Option I2c :=
  if s.streaming ∧ s.shiftRegister = none then
    let byte := stream s.acks.length
    let s := { s with acks := s.acks ++ [s.ack], streaming := s.ack && !s.stop }
    if s.dataRegister.isNone then some { s with dataRegister := some byte } else some { s with shiftRegister := some byte }
  else
    none

def I2c.step (read : RegisterRead) (stream : Nat → UInt8) (s : I2c) : I2cEvent → Option I2c
  | .driver => s.driver read
  | .byte => s.byte stream

end SmartWatch
