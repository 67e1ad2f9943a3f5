import Surd.Double.Basic

/-!
# Elementary functions

Sine, cosine, tangent, the logarithms and the general power are not computed here: they are what the machine's
own library gives. `Elementary` collects them, so that everything built on them is a function of them and can be
reasoned about for any choice; `Elementary.machine` is the choice that runs.
-/

namespace Surd

namespace Double

/-- The same number for the machine's arithmetic. -/
def toMachine (x : Double) : Float := Float.ofBits x.toBits

/-- The same number from the machine's arithmetic. -/
def ofMachine (x : Float) : Double := ofBits x.toBits

end Double

/-- The elementary functions on doubles. Angles are in radians, `log` is natural and `log10` decimal. -/
structure Elementary where
  sin : Double → Double
  cos : Double → Double
  tan : Double → Double
  log : Double → Double
  log10 : Double → Double
  pow : Double → Double → Double

/-- The elementary functions of the machine. -/
def Elementary.machine : Elementary where
  sin x := .ofMachine x.toMachine.sin
  cos x := .ofMachine x.toMachine.cos
  tan x := .ofMachine x.toMachine.tan
  log x := .ofMachine x.toMachine.log
  log10 x := .ofMachine x.toMachine.log10
  pow x y := .ofMachine (x.toMachine.pow y.toMachine)

end Surd
