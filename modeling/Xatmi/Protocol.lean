import Xatmi.ByteOrder

/-!
# Constants of the XATMI protocol

The values of `xatmi.h`, `libxatmi.h` and `server.h` that travel on the wire.
-/

namespace Xatmi

/-- Number of bytes of a service name. -/
def XATMI_SERVICE_NAME_LENGTH : Nat := 15

/-! ## Message types -/

/-- Call from client. -/
def TPTCALL : Byte := 0x0

/-- Request for reply from client. -/
def TPTGRPLY : Byte := 0x1

/-- Advertise a service. -/
def TPTADVT : Byte := 0x2

/-- Withdraw an advertisement. -/
def TPTUADV : Byte := 0x3

/-- Worker ready for work. -/
def TPTWORK : Byte := 0x4

/-- Worker returns a reply. -/
def TPTRETN : Byte := 0x5

/-! ## Flags and return values -/

def TPNOBLOCK : BitVec 64 := 0x00000001

def TPGETANY : BitVec 64 := 0x00000080

def TPFAIL : BitVec 32 := 0x0001

def TPSUCCESS : BitVec 32 := 0x0002

/-- Transaction failed, `tperrno` returned; goes with `TPSUCCESS` and `TPFAIL`. -/
def TPERRNO : BitVec 32 := 0x3

/-! ## Error values for `tperrno` -/

def TPEBADDESC : Nat := 2

def TPEBLOCK : Nat := 3

def TPEINVAL : Nat := 4

def TPENOENT : Nat := 6

def TPEOS : Nat := 7

def TPESVCERR : Nat := 10

def TPESVCFAIL : Nat := 11

def TPESYSTEM : Nat := 12

def TPEMATCH : Nat := 23

end Xatmi
