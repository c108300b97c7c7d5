import Relon.Ir.Op
import Relon.Codegen.Strings

/-! The bundled string functions that build a record in scratch memory
(`stdlib/defs.rs`, `stdlib/string_ops.rs`): `substring`, `replace` and the `trim`
family, as op streams.

Each allocates its record once, after it knows the length, and returns it. The
allocation is four bytes and the length, without padding. -/
namespace Relon.Ir

open Codegen Control

/-! ### substring -/

namespace Substring

def sLen : Nat := 0
def startI32 : Nat := 1
def lenI32 : Nat := 2
def base : Nat := 3

/-- Trap when the comparison on the stack holds. -/
def guardBounds : Stream :=
  [.ite (ops [.trap .indexOutOfBounds, .constI32 0]) (ops [.constI32 0])] ++
  ops [.letSet base .i32]

/-- `substring_string_body` up to the allocation of the record. -/
def sizing : Stream :=
  ops [.localGet 0, .loadI32AtAbsolute 0, .letSet sLen .i32,
    .localGet 1, .constI64 0, .cmp .lt .i64] ++ guardBounds ++
  ops [.localGet 2, .constI64 0, .cmp .lt .i64] ++ guardBounds ++
  ops [.localGet 1, .localGet 2, .add .i64, .localGet 0, .readStringLen, .cmp .gt .i64] ++
  guardBounds

/-- The two arguments narrowed to `i32`, through a block of their own. -/
def narrowing : Stream :=
  ops [.letGet base .i32, .localGet 1, .storeI64AtAbsolute 0,
    .letGet base .i32, .loadI32AtAbsolute 0, .letSet startI32 .i32,
    .letGet base .i32, .localGet 2, .storeI64AtAbsolute 0,
    .letGet base .i32, .loadI32AtAbsolute 0, .letSet lenI32 .i32,
    .letGet lenI32 .i32, .constI32 4, .add .i32]

def filling : Stream :=
  ops [.letGet base .i32, .letGet lenI32 .i32, .storeI32AtAbsolute 0,
    .letGet base .i32, .constI32 4, .add .i32,
    .localGet 0, .constI32 4, .add .i32, .letGet startI32 .i32, .add .i32,
    .letGet lenI32 .i32, .memcpyAtAbsolute]

/-- `substring_string_body`. -/
def body : Stream :=
  sizing ++ ops [.constI32 8, .allocScratchDyn, .letSet base .i32] ++
  narrowing ++ ops [.allocScratchDyn, .letSet base .i32] ++
  filling ++ ops [.letGet base .i32] ++ [.ret]

end Substring

/-! ### replace -/

namespace Replace

/-- `match_from_at_i`. -/
def matchFromAtI (sLen fLen i matchFlag j sink sb byte : Nat) : Stream :=
  ops [.letGet i .i32, .letGet fLen .i32, .add .i32, .letGet sLen .i32, .cmp .gt .i32] ++
  [.ite (ops [.constI32 0, .letSet matchFlag .i32, .constI32 0])
    (ops [.constI32 1, .letSet matchFlag .i32, .constI32 0, .letSet j .i32] ++
      [.block [.loop (
        ops [.letGet j .i32, .letGet fLen .i32, .cmp .ge .i32] ++ [.brIf 1] ++
        ops [.localGet 0, .constI32 4, .add .i32, .letGet i .i32, .add .i32, .letGet j .i32,
          .add .i32, .loadI8UAtAbsolute 0, .letSet sb .i32,
          .localGet 1, .constI32 4, .add .i32, .letGet j .i32, .add .i32, .loadI8UAtAbsolute 0,
          .letSet byte .i32,
          .letGet sb .i32, .letGet byte .i32, .cmp .eq .i32, .letGet matchFlag .i32, .bitAnd .i32,
          .letSet matchFlag .i32,
          .letGet matchFlag .i32, .constI32 0, .cmp .eq .i32] ++ [.brIf 1] ++
        ops [.letGet j .i32, .constI32 1, .add .i32, .letSet j .i32] ++ [.br 0])]] ++
      ops [.constI32 0])] ++
  ops [.letSet sink .i32]

/-- `empty_from_size`. -/
def emptyFromSize (sLen tLen outLen i sb : Nat) : Stream :=
  ops [.letGet sLen .i32, .letSet outLen .i32, .constI32 0, .letSet i .i32] ++
  [.block [.loop (
    ops [.letGet i .i32, .letGet sLen .i32, .cmp .ge .i32] ++ [.brIf 1] ++
    ops [.localGet 0, .constI32 4, .add .i32, .letGet i .i32, .add .i32, .loadI8UAtAbsolute 0,
      .letSet sb .i32,
      .letGet sb .i32, .constI32 0xC0, .bitAnd .i32, .constI32 0x80, .cmp .ne .i32] ++
    [.ite (ops [.letGet outLen .i32, .letGet tLen .i32, .add .i32, .letSet outLen .i32,
        .constI32 0])
      (ops [.constI32 0])] ++
    ops [.letSet sb .i32, .letGet i .i32, .constI32 1, .add .i32, .letSet i .i32] ++ [.br 0])]] ++
  ops [.letGet outLen .i32, .letGet tLen .i32, .add .i32, .letSet outLen .i32, .constI32 0]

/-- `nonempty_scan_size`. -/
def nonemptyScanSize (sLen fLen tLen outLen i matchFlag j sink sb byte : Nat) : Stream :=
  ops [.constI32 0, .letSet i .i32] ++
  [.block [.loop (
    ops [.letGet i .i32, .letGet sLen .i32, .cmp .ge .i32] ++ [.brIf 1] ++
    matchFromAtI sLen fLen i matchFlag j sink sb byte ++
    ops [.letGet matchFlag .i32] ++
    [.ite (ops [.letGet outLen .i32, .letGet tLen .i32, .add .i32, .letSet outLen .i32,
        .letGet i .i32, .letGet fLen .i32, .add .i32, .letSet i .i32, .constI32 0])
      (ops [.letGet outLen .i32, .constI32 1, .add .i32, .letSet outLen .i32,
        .letGet i .i32, .constI32 1, .add .i32, .letSet i .i32, .constI32 0])] ++
    ops [.letSet sink .i32] ++ [.br 0])]] ++
  ops [.constI32 0]

/-- `emit_to`. -/
def emitTo (tLen base w : Nat) : Stream :=
  ops [.letGet base .i32, .constI32 4, .add .i32, .letGet w .i32, .add .i32,
    .localGet 2, .constI32 4, .add .i32, .letGet tLen .i32, .memcpyAtAbsolute,
    .letGet w .i32, .letGet tLen .i32, .add .i32, .letSet w .i32]

/-- The output byte `sb` at the write cursor, and both cursors advanced. -/
def emitByte (base i w sb : Nat) : Stream :=
  ops [.letGet base .i32, .constI32 4, .add .i32, .letGet w .i32, .add .i32, .letGet sb .i32,
    .storeI8AtAbsolute 0,
    .letGet w .i32, .constI32 1, .add .i32, .letSet w .i32,
    .letGet i .i32, .constI32 1, .add .i32, .letSet i .i32]

/-- `empty_from_write`. -/
def emptyFromWrite (sLen tLen base i w sink sb : Nat) : Stream :=
  ops [.constI32 0, .letSet i .i32] ++
  [.block [.loop (
    ops [.letGet i .i32, .letGet sLen .i32, .cmp .ge .i32] ++ [.brIf 1] ++
    ops [.localGet 0, .constI32 4, .add .i32, .letGet i .i32, .add .i32, .loadI8UAtAbsolute 0,
      .letSet sb .i32,
      .letGet sb .i32, .constI32 0xC0, .bitAnd .i32, .constI32 0x80, .cmp .ne .i32] ++
    [.ite (emitTo tLen base w ++ ops [.constI32 0]) (ops [.constI32 0])] ++
    ops [.letSet sink .i32] ++ emitByte base i w sb ++ [.br 0])]] ++
  [.block (emitTo tLen base w)] ++ ops [.constI32 0]

/-- `nonempty_scan_write`. -/
def nonemptyScanWrite (sLen fLen tLen base i w matchFlag j sink sb byte : Nat) : Stream :=
  ops [.constI32 0, .letSet i .i32] ++
  [.block [.loop (
    ops [.letGet i .i32, .letGet sLen .i32, .cmp .ge .i32] ++ [.brIf 1] ++
    matchFromAtI sLen fLen i matchFlag j sink sb byte ++
    ops [.letGet matchFlag .i32] ++
    [.ite (emitTo tLen base w ++
        ops [.letGet i .i32, .letGet fLen .i32, .add .i32, .letSet i .i32, .constI32 0])
      (ops [.localGet 0, .constI32 4, .add .i32, .letGet i .i32, .add .i32, .loadI8UAtAbsolute 0,
        .letSet sb .i32] ++ emitByte base i w sb ++ ops [.constI32 0])] ++
    ops [.letSet sink .i32] ++ [.br 0])]] ++
  ops [.constI32 0]

def sLen : Nat := 0
def fLen : Nat := 1
def tLen : Nat := 2
def outLen : Nat := 3
def base : Nat := 4
def i : Nat := 5
def w : Nat := 6
def matchFlag : Nat := 7
def j : Nat := 8
def sink : Nat := 9
def sb : Nat := 10
def byte : Nat := 11

def sizing : Stream :=
  ops [.localGet 0, .loadI32AtAbsolute 0, .letSet sLen .i32,
    .localGet 1, .loadI32AtAbsolute 0, .letSet fLen .i32,
    .localGet 2, .loadI32AtAbsolute 0, .letSet tLen .i32,
    .constI32 0, .letSet outLen .i32, .constI32 0, .letSet i .i32,
    .letGet fLen .i32, .constI32 0, .cmp .eq .i32] ++
  [.ite (emptyFromSize sLen tLen outLen i sb)
    (nonemptyScanSize sLen fLen tLen outLen i matchFlag j sink sb byte)] ++
  ops [.letSet sink .i32, .letGet outLen .i32, .constI32 4, .add .i32]

/-- The header and the writing pass. -/
def filling : Stream :=
  ops [.letGet base .i32, .letGet outLen .i32, .storeI32AtAbsolute 0,
    .constI32 0, .letSet i .i32, .constI32 0, .letSet w .i32,
    .letGet fLen .i32, .constI32 0, .cmp .eq .i32] ++
  [.ite (emptyFromWrite sLen tLen base i w sink sb)
    (nonemptyScanWrite sLen fLen tLen base i w matchFlag j sink sb byte)] ++
  ops [.letSet sink .i32]

/-- `replace_string_body`. -/
def body : Stream :=
  sizing ++ ops [.allocScratchDyn, .letSet base .i32] ++
  filling ++ ops [.letGet base .i32] ++ [.ret]

end Replace

/-! ### trim -/

inductive TrimSide where
  | both | start | end_
  deriving DecidableEq, Repr

namespace Trim

def sLen : Nat := 0
def i : Nat := 1
def cp : Nat := 2
def cpBytes : Nat := 3
def b0 : Nat := 4
def bTmp : Nat := 5
def sink : Nat := 6
def start : Nat := 7
def stop : Nat := 8
def found : Nat := 9
def ws : Nat := 10
def outStart : Nat := 11
def outLen : Nat := 12
def base : Nat := 13

/-- `load_input_byte`. -/
def loadInputByte (off : BitVec 32) : Stream :=
  ops [.localGet 0, .constI32 (4 + off), .add .i32, .letGet i .i32, .add .i32,
    .loadI8UAtAbsolute 0]

/-- `trap_invalid_utf8`. -/
def trapInvalidUtf8 : Stream := ops [.trap .invalidUtf8, .constI32 0]

/-- `load_continuation`. -/
def loadContinuation (n : BitVec 32) : Stream :=
  loadInputByte n ++ ops [.constI32 0x3F, .bitAnd .i32, .letSet bTmp .i32]

/-- Trap when the sequence that starts here has no byte `n` left. -/
def needs (n : BitVec 32) : Stream :=
  ops [.letGet i .i32, .constI32 n, .add .i32, .letGet sLen .i32, .cmp .ge .i32] ++
  [.ite trapInvalidUtf8 (ops [.constI32 0])] ++ ops [.letSet sink .i32]

def decodeTwo : Stream :=
  needs 1 ++ loadContinuation 1 ++
  ops [.letGet b0 .i32, .constI32 0x1F, .bitAnd .i32, .constI32 64, .mul .i32,
    .letGet bTmp .i32, .add .i32, .letSet cp .i32, .constI32 2, .letSet cpBytes .i32, .constI32 0]

def decodeThree : Stream :=
  needs 2 ++
  ops [.letGet b0 .i32, .constI32 0x0F, .bitAnd .i32, .constI32 4096, .mul .i32] ++
  loadContinuation 1 ++ ops [.letGet bTmp .i32, .constI32 64, .mul .i32, .add .i32] ++
  loadContinuation 2 ++
  ops [.letGet bTmp .i32, .add .i32, .letSet cp .i32, .constI32 3, .letSet cpBytes .i32,
    .constI32 0]

def decodeFour : Stream :=
  ops [.letGet b0 .i32, .constI32 0xF8, .cmp .ge .i32] ++
  [.ite trapInvalidUtf8 (ops [.constI32 0])] ++ ops [.letSet sink .i32] ++
  needs 3 ++
  ops [.letGet b0 .i32, .constI32 0x07, .bitAnd .i32, .constI32 262144, .mul .i32] ++
  loadContinuation 1 ++ ops [.letGet bTmp .i32, .constI32 4096, .mul .i32, .add .i32] ++
  loadContinuation 2 ++ ops [.letGet bTmp .i32, .constI32 64, .mul .i32, .add .i32] ++
  loadContinuation 3 ++
  ops [.letGet bTmp .i32, .add .i32, .letSet cp .i32, .constI32 4, .letSet cpBytes .i32,
    .constI32 0]

/-- `decode_seq`: the code point at the cursor, and its width. -/
def decodeSeq : Stream :=
  loadInputByte 0 ++ ops [.letSet b0 .i32, .letGet b0 .i32, .constI32 0x80, .cmp .lt .i32] ++
  [.ite (ops [.letGet b0 .i32, .letSet cp .i32, .constI32 1, .letSet cpBytes .i32, .constI32 0])
    (ops [.letGet b0 .i32, .constI32 0xC2, .cmp .lt .i32] ++
      [.ite trapInvalidUtf8
        (ops [.letGet b0 .i32, .constI32 0xE0, .cmp .lt .i32] ++
          [.ite decodeTwo
            (ops [.letGet b0 .i32, .constI32 0xF0, .cmp .lt .i32] ++
              [.ite decodeThree decodeFour])])])] ++
  ops [.letSet sink .i32]

/-- One round of the scan: the first and the end of the last code point that is not white
space. -/
def scanStep (isWhitespace : Helper) (whitespaceRangesAddr : BitVec 32) : Stream :=
  ops [.letGet i .i32, .letGet sLen .i32, .cmp .ge .i32] ++ [.brIf 1] ++ decodeSeq ++
  ops [.letGet cp .i32, .constI32 whitespaceRangesAddr, .call isWhitespace, .letSet ws .i32,
    .letGet ws .i32, .constI32 0, .cmp .eq .i32] ++
  [.ite
    (ops [.letGet found .i32, .constI32 0, .cmp .eq .i32] ++
      [.ite (ops [.letGet i .i32, .letSet start .i32, .constI32 1, .letSet found .i32,
          .constI32 0])
        (ops [.constI32 0])] ++
      ops [.letSet sink .i32, .letGet i .i32, .letGet cpBytes .i32, .add .i32, .letSet stop .i32,
        .constI32 0])
    (ops [.constI32 0])] ++
  ops [.letSet sink .i32, .letGet i .i32, .letGet cpBytes .i32, .add .i32, .letSet i .i32] ++
  [.br 0]

/-- The part of the input that stays, by the side that is trimmed. -/
def cut : TrimSide → Stream
  | .both =>
    ops [.letGet start .i32, .letSet outStart .i32, .letGet found .i32, .constI32 0,
      .cmp .ne .i32] ++
    [.ite (ops [.letGet stop .i32, .letGet start .i32, .sub .i32]) (ops [.constI32 0])] ++
    ops [.letSet outLen .i32]
  | .start =>
    ops [.letGet start .i32, .letSet outStart .i32, .letGet sLen .i32, .letGet start .i32,
      .sub .i32, .letSet outLen .i32]
  | .end_ =>
    ops [.constI32 0, .letSet outStart .i32, .letGet stop .i32, .letSet outLen .i32]

def sizing (side : TrimSide) (isWhitespace : Helper) (whitespaceRangesAddr : BitVec 32) : Stream :=
  ops [.localGet 0, .loadI32AtAbsolute 0, .letSet sLen .i32, .letGet sLen .i32,
    .letSet start .i32, .constI32 0, .letSet stop .i32, .constI32 0, .letSet found .i32,
    .constI32 0, .letSet i .i32] ++
  [.block [.loop (scanStep isWhitespace whitespaceRangesAddr)]] ++ cut side ++
  ops [.constI32 4, .letGet outLen .i32, .add .i32]

def filling : Stream :=
  ops [.letGet base .i32, .letGet outLen .i32, .storeI32AtAbsolute 0,
    .letGet base .i32, .constI32 4, .add .i32,
    .localGet 0, .constI32 4, .add .i32, .letGet outStart .i32, .add .i32,
    .letGet outLen .i32, .memcpyAtAbsolute]

/-- `trim_body`. -/
def body (side : TrimSide) (isWhitespace : Helper) (whitespaceRangesAddr : BitVec 32) : Stream :=
  sizing side isWhitespace whitespaceRangesAddr ++ ops [.allocScratchDyn, .letSet base .i32] ++
  filling ++ ops [.letGet base .i32] ++ [.ret]

end Trim

end Relon.Ir
