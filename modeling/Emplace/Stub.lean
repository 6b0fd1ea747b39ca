import Emplace.Draft.Edit
import Emplace.Image.Resolve

/-
  The write stub: a routine that writes a message to a descriptor and returns.

  The code loads the arguments of the kernel's `write` service, the address of the message among
  them, asks for the service and returns; the message follows the code.  A stub is made with the
  address of the message still open, and `Stub.resolve` fills it in.
-/

namespace Emplace

structure Stub where
  image : Image
  /-- The site that waits for the address of the message. -/
  site : Site
  /-- Where the message starts. -/
  message : Nat
  deriving DecidableEq

namespace Stub

open X64 (Emission)

/-- The length of a message as the count of a write, which has 32 bits. -/
def count (length : Nat) : Except Error UInt32 :=
  if length < 0x100000000 then .ok (.ofNat length)
  else .error (.fieldOverflow (min length (Offset.signedLimit - 1)) 32)

/-- The code before the instruction that names the message. -/
def arguments (descriptor count : UInt32) : List Edit :=
  [.instruction (.mov .rax X64.writeService), .instruction (.mov .rdi descriptor),
    .instruction (.mov .rdx count)]

/-- The instruction that names the message, and the code behind it. -/
def service : List Edit :=
  [.instruction (.lea .rsi), .instruction .syscall, .instruction .ret]

/-- The stub whose message has the given count. -/
def assemble (descriptor count : UInt32) (message : List UInt8) : Stub :=
  let arguments := Draft.ofEdits (arguments descriptor count)
  let code := arguments.run service
  { image := (code.step (.data message)).finish
    site := arguments.nextSite (Emission.lea .rsi).leading .rel32
    message := code.size }

/-- The stub that writes `message` to `descriptor`. -/
def writing (descriptor : UInt32) (message : List UInt8) : Except Error Stub :=
  (count message.length).map fun count => assemble descriptor count message

/-- Fills in the address of the message. -/
def resolve (s : Stub) : Except Error (Int × Image) := s.image.resolve s.site s.message

/-- The bytes of "Hello World!". -/
def greeting : List UInt8 :=
  [0x48, 0x65, 0x6C, 0x6C, 0x6F, 0x20, 0x57, 0x6F, 0x72, 0x6C, 0x64, 0x21]

/-- The descriptor of standard output. -/
def standardOutput : UInt32 := 1

example :
    (assemble 1 12 greeting).resolve.map (fun (d, image) => (d, image.code)) =
      .ok (3, [0xB8, 1, 0, 0, 0, 0xBF, 1, 0, 0, 0, 0xBA, 12, 0, 0, 0,
        0x48, 0x8D, 0x35, 3, 0, 0, 0, 0x0F, 0x05, 0xC3]) := rfl

end Stub

end Emplace
