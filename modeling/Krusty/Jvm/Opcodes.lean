import Krusty.Jvm.MethodNode.Nodes

/-! JVM opcode values, beyond those control flow alone names. -/
namespace Krusty.Jvm

def aconstNull : UInt8 := 0x01
def iconstM1 : UInt8 := 0x02
def iconst5 : UInt8 := 0x08
def lconst0 : UInt8 := 0x09
def lconst1 : UInt8 := 0x0a
def fconst0 : UInt8 := 0x0b
def fconst2 : UInt8 := 0x0d
def dconst0 : UInt8 := 0x0e
def dconst1 : UInt8 := 0x0f
def bipush : UInt8 := 0x10
def sipush : UInt8 := 0x11
def ldcOp : UInt8 := 0x12
def ldc2W : UInt8 := 0x14
def iload : UInt8 := 0x15
def aload : UInt8 := 0x19
def iaload : UInt8 := 0x2e
def laload : UInt8 := 0x2f
def faload : UInt8 := 0x30
def daload : UInt8 := 0x31
def aaload : UInt8 := 0x32
def baload : UInt8 := 0x33
def saload : UInt8 := 0x35
def iastore : UInt8 := 0x4f
def sastore : UInt8 := 0x56
def popOp : UInt8 := 0x57
def pop2Op : UInt8 := 0x58
def dupOp : UInt8 := 0x59
def dupX1Op : UInt8 := 0x5a
def dupX2Op : UInt8 := 0x5b
def dup2Op : UInt8 := 0x5c
def dup2X1Op : UInt8 := 0x5d
def dup2X2Op : UInt8 := 0x5e
def swapOp : UInt8 := 0x5f
def iadd : UInt8 := 0x60
def drem : UInt8 := 0x73
def ineg : UInt8 := 0x74
def dneg : UInt8 := 0x77
def ishl : UInt8 := 0x78
def lxor : UInt8 := 0x83
def i2l : UInt8 := 0x85
def i2s : UInt8 := 0x93
def lcmp : UInt8 := 0x94
def dcmpg : UInt8 := 0x98
def ifeq : UInt8 := 0x99
def ifle : UInt8 := 0x9e
def ifIcmpeq : UInt8 := 0x9f
def ifIcmple : UInt8 := 0xa4
def ifAcmpne : UInt8 := 0xa6
def tableswitch : UInt8 := 0xaa
def lookupswitch : UInt8 := 0xab
def areturn : UInt8 := 0xb0
def getstatic : UInt8 := 0xb2
def putstatic : UInt8 := 0xb3
def getfield : UInt8 := 0xb4
def putfield : UInt8 := 0xb5
def invokevirtual : UInt8 := 0xb6
def invokespecial : UInt8 := 0xb7
def invokestatic : UInt8 := 0xb8
def invokeinterface : UInt8 := 0xb9
def invokedynamic : UInt8 := 0xba
def newOp : UInt8 := 0xbb
def newarray : UInt8 := 0xbc
def anewarray : UInt8 := 0xbd
def arraylength : UInt8 := 0xbe
def checkcast : UInt8 := 0xc0
def instanceof : UInt8 := 0xc1
def monitorenter : UInt8 := 0xc2
def monitorexit : UInt8 := 0xc3
def multianewarray : UInt8 := 0xc5
def ifnull : UInt8 := 0xc6
def ifnonnull : UInt8 := 0xc7

end Krusty.Jvm
