namespace Discharge.Decimal

def wordLimit : Nat := Nat.pow 2 63

def fitsWord (n : Int) : Bool := -(wordLimit : Int) ≤ n && n < wordLimit

def wrapped (n : Int) : Int := n.bmod (2 * wordLimit)

end Discharge.Decimal
