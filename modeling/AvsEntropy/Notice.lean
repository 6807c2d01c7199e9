import AvsEntropy.Coefficient.Scan
import AvsEntropy.Range.Registers

/-!
# Notices

What a decoder has to say besides its answers. A notice is a value;
`severity` grades it and `text` words it. Which computation gives which
notices is said where the computation is.
-/

namespace AvsEntropy

/-- How much a notice matters. -/
inductive Severity where
  /-- A detail of the decoding. -/
  | trace
  /-- A change of state. -/
  | debug
  /-- A sign of damaged data. -/
  | warn
  deriving DecidableEq, Repr

/-- The name of a grade. -/
def Severity.name : Severity → String
  | .trace => "TRACE"
  | .debug => "DEBUG"
  | .warn => "WARN"

/-- Something worth recording. -/
inductive Notice where
  /-- Bits were skipped to reach a byte boundary. -/
  | aligned (bits : Nat)
  /-- A range decoder has started, from so many bits. -/
  | started (bits : Nat) (registers : Registers)
  /-- A decoded value exceeds its limit. -/
  | outOfRange (element : String) (value limit : Nat)
  /-- A block of coefficients is complete. -/
  | blockEnd (plane : Plane) (count : Nat) (scan : Scan)
  deriving DecidableEq, Repr

/-- A byte as two hexadecimal digits. -/
def hexByte (byte : Nat) : String :=
  String.ofList [(Nat.digitChar (byte / 16)).toUpper, (Nat.digitChar (byte % 16)).toUpper]

namespace Notice

/-- The grade of a notice. -/
def severity : Notice → Severity
  | .aligned .. => .trace
  | .started .. => .debug
  | .outOfRange .. => .warn
  | .blockEnd .. => .trace

/-- The notice in words. -/
def text : Notice → String
  | .aligned bits => s!"CAVS AEC: 跳过 {bits} 个字节对齐位"
  | .started bits r =>
    s!"CAVS AEC: 引擎初始化, 消耗 {bits} 位, value_s={r.valueScale}, value_t=0x" ++
      hexByte r.valueRest
  | .outOfRange element value limit =>
    s!"CAVS AEC: 语法元素越界, element={element}, value={value}, limit={limit}"
  | .blockEnd plane count scan =>
    s!"CAVS AEC: 系数块结束, plane={plane.name}, pairs={count}, position={scan.position}, " ++
      s!"primary_index={scan.tier}"

end Notice

end AvsEntropy
