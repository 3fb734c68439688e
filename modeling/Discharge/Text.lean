/-!
Texts. A text is a sequence of bytes. Nearly always these are the UTF-8 form of some characters, but
a name may also hold bytes that belong to no character. Texts are told apart and put in order by
their bytes; for characters in UTF-8 that is also the order of the code points.

What an operation does is said of the list of the bytes.
-/

namespace Discharge

structure Text where
  bytes : ByteArray
  deriving Inhabited

namespace Text

instance : DecidableEq Text := fun a b =>
  match ByteArray.instDecidableEq a.bytes b.bytes with
  | isTrue h => isTrue (congrArg mk h)
  | isFalse h => isFalse fun e => h (congrArg bytes e)

def toList (t : Text) : List UInt8 := t.bytes.data.toList

instance : Repr Text := ⟨fun t n => reprPrec t.toList n⟩

def ofList (bytes : List UInt8) : Text := ⟨bytes.toByteArray⟩

def ofString (s : String) : Text := ⟨s.toByteArray⟩

instance : Coe String Text := ⟨ofString⟩

def empty : Text := ⟨.empty⟩

instance : Append Text := ⟨fun a b => ⟨a.bytes ++ b.bytes⟩⟩

instance : LT Text := ⟨fun a b => a.toList < b.toList⟩

instance (a b : Text) : Decidable (a < b) := inferInstanceAs (Decidable (a.toList < b.toList))

instance : Ord Text := ⟨compareOn toList⟩

def length (t : Text) : Nat := t.bytes.size

def isEmpty (t : Text) : Bool := t.length == 0

def isOneOf (t : Text) (texts : List Text) : Bool := texts.contains t

def startsWith (t start : Text) : Bool := start.toList.isPrefixOf t.toList

def join (texts : List Text) : Text := texts.foldl (· ++ ·) empty

def intercalate (separator : Text) : List Text → Text
  | [] => empty
  | t :: rest => rest.foldl (fun done t => done ++ separator ++ t) t

def sorted (texts : List Text) : List Text :=
  texts.mergeSort fun a b => !decide (b < a)

def distinct (texts : List Text) : List Text :=
  texts.foldl (fun seen t => if seen.contains t then seen else seen ++ [t]) []

@[ext] theorem ext {a b : Text} (h : a.toList = b.toList) : a = b := by
  obtain ⟨⟨⟨x⟩⟩⟩ := a
  obtain ⟨⟨⟨y⟩⟩⟩ := b
  simp_all [toList]

instance : Std.TransOrd Text := inferInstanceAs (Std.TransCmp (compareOn toList))

instance : Std.LawfulEqOrd Text where
  compare_self {a} := Std.ReflOrd.compare_self (a := a.toList)
  eq_of_compare h := ext (Std.LawfulEqOrd.eq_of_compare h)

section Order

variable {a b c : Text}

theorem lt_trans (h : a < b) (h' : b < c) : a < c :=
  List.lt_trans (α := UInt8) h h'

theorem lt_irrefl (a : Text) : ¬ a < a := List.lt_irrefl a.toList

theorem lt_of_not_lt (h : ¬ a < b) (hne : a ≠ b) : b < a := by
  have hle : b.toList ≤ a.toList := h
  rcases List.le_iff_lt_or_eq.mp hle with hlt | he
  · exact hlt
  · exact (hne (ext he.symm)).elim

end Order

@[simp] theorem toList_ofList (bytes : List UInt8) : (ofList bytes).toList = bytes := by
  simp [toList, ofList]

@[simp] theorem toList_empty : empty.toList = [] := rfl

@[simp] theorem toList_append (a b : Text) : (a ++ b).toList = a.toList ++ b.toList :=
  ByteArray.toList_data_append

theorem length_eq (t : Text) : t.length = t.toList.length := by
  simp [length, toList]

theorem append_assoc (a b c : Text) : a ++ b ++ c = a ++ (b ++ c) := by
  ext1
  simp

theorem toList_foldl_append (start : Text) (texts : List Text) :
    (texts.foldl (· ++ ·) start).toList = start.toList ++ texts.flatMap toList := by
  induction texts generalizing start with
  | nil => simp
  | cons t rest ih => simp [ih]

theorem toList_join (texts : List Text) : (join texts).toList = texts.flatMap toList := by
  simp [join, toList_foldl_append]

theorem toList_intercalate (separator t : Text) (rest : List Text) :
    (intercalate separator (t :: rest)).toList =
      t.toList ++ rest.flatMap fun u => separator.toList ++ u.toList := by
  unfold intercalate
  induction rest generalizing t with
  | nil => simp
  | cons u rest ih => simp [ih]

end Text

end Discharge
