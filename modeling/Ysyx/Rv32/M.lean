import Ysyx.Bytes.LittleEndian

-- The results of the instructions of the M extension. Division is rounded towards zero, and has a result for
-- every divisor.

namespace Rv32.M

def mul (a b : Word) : Word :=
  a * b

def divu (a b : Word) : Word :=
  if b = 0 then -1 else a / b

def remu (a b : Word) : Word :=
  if b = 0 then a else a % b

def div (a b : Word) : Word :=
  if b = 0 then -1 else a.sdiv b

def rem (a b : Word) : Word :=
  if b = 0 then a else a.srem b

end Rv32.M
