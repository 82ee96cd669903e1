/-!
Access flags of classes and methods. A flag is a single bit; bits without a flag are dropped when
flags are read, and the flags read are listed in the order of their bits.
-/

namespace Recompose

inductive ClassFlag where
  | accPublic
  | accFinal
  | accSuper
  | accInterface
  | accAbstract
  | accSynthetic
  | accAnnotation
  | accEnum
  | accModule
deriving DecidableEq, Repr

namespace ClassFlag

def all : List ClassFlag :=
  [accPublic, accFinal, accSuper, accInterface, accAbstract, accSynthetic, accAnnotation, accEnum,
    accModule]

def bit : ClassFlag → UInt16
  | accPublic => 0x0001
  | accFinal => 0x0010
  | accSuper => 0x0020
  | accInterface => 0x0200
  | accAbstract => 0x0400
  | accSynthetic => 0x1000
  | accAnnotation => 0x2000
  | accEnum => 0x4000
  | accModule => 0x8000

def name : ClassFlag → String
  | accPublic => "PUBLIC"
  | accFinal => "FINAL"
  | accSuper => "SUPER"
  | accInterface => "INTERFACE"
  | accAbstract => "ABSTRACT"
  | accSynthetic => "SYNTHETIC"
  | accAnnotation => "ANNOTATION"
  | accEnum => "ENUM"
  | accModule => "MODULE"

/-- The flags whose bits are set. -/
def ofBits (bits : UInt16) : List ClassFlag :=
  all.filter fun flag => bits &&& flag.bit != 0

def toBits (flags : List ClassFlag) : UInt16 :=
  flags.foldl (fun bits flag => bits ||| flag.bit) 0

end ClassFlag

inductive MethodFlag where
  | accPublic
  | accPrivate
  | accProtected
  | accStatic
  | accFinal
  | accSynchronized
  | accBridge
  | accVarargs
  | accNative
  | accAbstract
  | accStrict
  | accSynthetic
deriving DecidableEq, Repr

namespace MethodFlag

def all : List MethodFlag :=
  [accPublic, accPrivate, accProtected, accStatic, accFinal, accSynchronized, accBridge, accVarargs,
    accNative, accAbstract, accStrict, accSynthetic]

def bit : MethodFlag → UInt16
  | accPublic => 0x0001
  | accPrivate => 0x0002
  | accProtected => 0x0004
  | accStatic => 0x0008
  | accFinal => 0x0010
  | accSynchronized => 0x0020
  | accBridge => 0x0040
  | accVarargs => 0x0080
  | accNative => 0x0100
  | accAbstract => 0x0400
  | accStrict => 0x0800
  | accSynthetic => 0x1000

def name : MethodFlag → String
  | accPublic => "PUBLIC"
  | accPrivate => "PRIVATE"
  | accProtected => "PROTECTED"
  | accStatic => "STATIC"
  | accFinal => "FINAL"
  | accSynchronized => "SYNCHRONIZED"
  | accBridge => "BRIDGE"
  | accVarargs => "VARARGS"
  | accNative => "NATIVE"
  | accAbstract => "ABSTRACT"
  | accStrict => "STRICT"
  | accSynthetic => "SYNTHETIC"

/-- The flags whose bits are set. -/
def ofBits (bits : UInt16) : List MethodFlag :=
  all.filter fun flag => bits &&& flag.bit != 0

def toBits (flags : List MethodFlag) : UInt16 :=
  flags.foldl (fun bits flag => bits ||| flag.bit) 0

end MethodFlag

end Recompose
