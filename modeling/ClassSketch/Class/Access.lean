/-! Access flags: sixteen bits, some of which mean one thing on a field and another on a method.
Bits without a name are kept. -/

namespace ClassSketch

structure AccessFlags where
  bits : BitVec 16 := 0#16
deriving DecidableEq, Inhabited

namespace AccessFlags

def ofNat (n : Nat) : AccessFlags := ⟨BitVec.ofNat 16 n⟩

def toNat (a : AccessFlags) : Nat := a.bits.toNat

def publicFlag : AccessFlags := ⟨0x0001#16⟩
def privateFlag : AccessFlags := ⟨0x0002#16⟩
def protectedFlag : AccessFlags := ⟨0x0004#16⟩
def staticFlag : AccessFlags := ⟨0x0008#16⟩
def finalFlag : AccessFlags := ⟨0x0010#16⟩
def bridgeFlag : AccessFlags := ⟨0x0040#16⟩
def varargsFlag : AccessFlags := ⟨0x0080#16⟩
def nativeFlag : AccessFlags := ⟨0x0100#16⟩
def interfaceFlag : AccessFlags := ⟨0x0200#16⟩
def abstractFlag : AccessFlags := ⟨0x0400#16⟩
def strictFlag : AccessFlags := ⟨0x0800#16⟩
def syntheticFlag : AccessFlags := ⟨0x1000#16⟩
def annotationFlag : AccessFlags := ⟨0x2000#16⟩
def enumFlag : AccessFlags := ⟨0x4000#16⟩
def moduleFlag : AccessFlags := ⟨0x8000#16⟩

def union (a b : AccessFlags) : AccessFlags := ⟨a.bits ||| b.bits⟩

def inter (a b : AccessFlags) : AccessFlags := ⟨a.bits &&& b.bits⟩

def without (a b : AccessFlags) : AccessFlags := ⟨a.bits &&& ~~~b.bits⟩

/-- All of the given bits are set. -/
def has (a b : AccessFlags) : Bool := a.bits &&& b.bits == b.bits

/-- Some of the given bits are set. -/
def hasSome (a b : AccessFlags) : Bool := a.bits &&& b.bits != 0#16

/-- The bits for public, protected and private. -/
def accessibility (a : AccessFlags) : AccessFlags :=
  a.inter ((publicFlag.union protectedFlag).union privateFlag)

/-- What a class inside a method body keeps: abstract and final. -/
def localPart (a : AccessFlags) : AccessFlags := a.inter (abstractFlag.union finalFlag)

def isSynthetic (a : AccessFlags) : Bool := a.has syntheticFlag

end AccessFlags

end ClassSketch
