import PaWebServer.Lib.FileTree
import PaWebServer.Lib.ParseInt
import PaWebServer.Lib.Properties

/-!
# The configuration reader

`ConfigReader` loads a property file and returns the value of a property, as a text or as an `int`.
A reader of a file that `Properties.store` has written has the properties that were stored
(`stored_properties_read`).
-/

namespace ConfigReader

open FileTree Properties Integer

/-- What the methods throw.  The message of an IOException is `none` where it comes from the
operating system. -/
inductive Exception where
  | ioException (message : Option Text)
  | illegalArgumentException
  | numberFormatException
  deriving DecidableEq

/-- What a `File` of the path stands for; the empty path stands for nothing. -/
def fileEntry (fs : FileSystem) (configFilePath : Text) : Option Entry :=
  if configFilePath = [] then none else (Path.get configFilePath).bind fs.entryAt

/-- The constructor. -/
def new (fs : FileSystem) (configFilePath : Text) :
    Except Exception (List (JString × JString)) :=
  match fileEntry fs configFilePath with
  | none => .error (.ioException ("Configuration file not found: ".toList ++ configFilePath))
  | some (.dir _ _) | some (.file none) => .error (.ioException none)
  | some (.file (some content)) =>
    match load content with
    | none => .error .illegalArgumentException
    | some properties => .ok properties

/-- `getProperty`; `none` for null. -/
def getProperty (properties : List (JString × JString)) (key : JString) : Option JString :=
  Properties.getProperty properties key

/-- `getIntProperty`; null is no numeral either. -/
def getIntProperty (properties : List (JString × JString)) (key : JString) :
    Except Exception Int32 :=
  match (Properties.getProperty properties key).bind parseInt with
  | none => .error .numberFormatException
  | some n => .ok n

/-- The path leads to a file of this content. -/
def Holds (fs : FileSystem) (configFilePath : Text) (content : Bytes) : Prop :=
  fileEntry fs configFilePath = some (.file (some content))

variable {fs : FileSystem} {configFilePath : Text} {properties : List (JString × JString)}

theorem new_eq_ok_iff : new fs configFilePath = .ok properties ↔
    ∃ content, Holds fs configFilePath content ∧ load content = some properties := by
  unfold new Holds
  constructor
  · intro h
    split at h
    · cases h
    · cases h
    · cases h
    · rename_i content hcontent
      refine ⟨content, hcontent, ?_⟩
      cases hload : load content with
      | none =>
        rw [hload] at h
        cases h
      | some ps =>
        rw [hload] at h
        exact congrArg some (Except.ok.inj h)
  · rintro ⟨content, hcontent, hload⟩
    rw [hcontent]
    simp only [hload]

/-- The value is a numeral of the number. -/
theorem getIntProperty_eq_ok_iff {key : JString} {n : Int32} :
    getIntProperty properties key = .ok n ↔
      ∃ value, getProperty properties key = some value ∧ Denotes value n.toInt := by
  have hvalue : getIntProperty properties key = .ok n ↔
      (getProperty properties key).bind parseInt = some n := by
    unfold getIntProperty getProperty
    cases (Properties.getProperty properties key).bind parseInt <;> simp
  rw [hvalue, Option.bind_eq_some_iff]
  simp only [parseInt_eq_some_iff]

/-- A reader of a file that `Properties.store` has written, with any line separator and date, and
the properties in any order: it has exactly the properties that were stored, and returns an `int`
exactly for those whose value is the numeral of one, so for each that was written as one. -/
theorem stored_properties_read (sep date : JString) (hne : sep ≠ [])
    (hsep : ∀ c ∈ sep, isEol c = true) (hdate : ∀ c ∈ date, isEol c = false ∧ c.toNat < 256)
    (table : List (JString × JString)) (hkeys : (table.map Prod.fst).Nodup) {fs : FileSystem}
    {configFilePath : Text} (hfile : Holds fs configFilePath (store sep date table)) :
    ∃ properties, new fs configFilePath = .ok properties ∧
      (∀ key value, getProperty properties key = some value ↔ (key, value) ∈ table) ∧
      (∀ key n, getIntProperty properties key = .ok n ↔
        ∃ value, (key, value) ∈ table ∧ Denotes value n.toInt) ∧
      ∀ key (n : Int32), (key, toDecimal n.toInt) ∈ table →
        getIntProperty properties key = .ok n := by
  have hget : ∀ key value, getProperty table key = some value ↔ (key, value) ∈ table :=
    fun _ _ => getProperty_eq_some_iff hkeys
  have hint : ∀ key n, getIntProperty table key = .ok n ↔
      ∃ value, (key, value) ∈ table ∧ Denotes value n.toInt := by
    intro key n
    rw [getIntProperty_eq_ok_iff]
    simp only [hget]
  refine ⟨table, new_eq_ok_iff.2 ⟨_, hfile, load_store hne hsep hdate table⟩, hget, hint, ?_⟩
  intro key n hmem
  exact (hint key n).2 ⟨_, hmem, denotes_toDecimal n.toInt⟩

/-- The file `server.config` of the server root. -/
def configFiles (content : Bytes) : FileSystem where
  root := .cons ⟨"server_root".toList, by decide, by decide⟩ (.dir true
    (.cons ⟨"config".toList, by decide, by decide⟩ (.dir true
      (.cons ⟨"server.config".toList, by decide, by decide⟩ (.file (some content)) .nil))
      .nil)) .nil
  cwd := []
  distinct := by rfl

/-- The UTF-16 code units of an ASCII literal. -/
def units (s : String) : JString := s.toList.map fun c => UInt16.ofNat c.toNat

/-- A port, and a property with units that are escaped. -/
def sampleTable : List (JString × JString) :=
  [(units "server.port", units "8080"), (units "a key", units " = \n#\\")]

def sampleDate : JString := units "Fri Mar 28"

theorem sampleDate_latin : ∀ c ∈ sampleDate, isEol c = false ∧ c.toNat < 256 := by
  have hall : (sampleDate.all fun c => isEol c = false ∧ c.toNat < 256) = true := rfl
  simpa only [List.all_eq_true, decide_eq_true_eq] using hall

theorem stored_properties_read_sampleTable :
    ∃ properties, new (configFiles (store [13, 10] sampleDate sampleTable))
        "server_root/config/server.config".toList = .ok properties ∧
      (∀ key value, getProperty properties key = some value ↔ (key, value) ∈ sampleTable) ∧
      (∀ key n, getIntProperty properties key = .ok n ↔
        ∃ value, (key, value) ∈ sampleTable ∧ Denotes value n.toInt) ∧
      ∀ key (n : Int32), (key, toDecimal n.toInt) ∈ sampleTable →
        getIntProperty properties key = .ok n :=
  stored_properties_read [13, 10] sampleDate (List.cons_ne_nil _ _) (List.all_eq_true.1 rfl)
    sampleDate_latin sampleTable (by decide) (by rfl)

end ConfigReader
