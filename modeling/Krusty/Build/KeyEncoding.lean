import Krusty.Build.CacheKey

/-! What a key's computation absorbs determines the key's inputs. -/
namespace Krusty.Build

open Strings

/-- A list whose length the machine can count. -/
abbrev Fits {α : Type} (items : List α) : Prop := items.length < 2 ^ 64

namespace Hasher

variable {γ α β : Type} {P Q : γ → Prop}

/-- What `f` absorbs of a value tells a part of the value, and where it ends. -/
def Determines (P : γ → Prop) (f : γ → Hasher → Hasher) (part : γ → α) : Prop :=
  ∃ code : γ → List UInt8, (∀ c h, (f c h).absorbed = h.absorbed ++ code c) ∧
    ∀ c c' rest rest', P c → P c' → code c ++ rest = code c' ++ rest' → part c = part c' ∧ rest = rest'

theorem Determines.mono {f : γ → Hasher → Hasher} {part : γ → α} (h : Determines P f part) (hQ : ∀ c, Q c → P c) :
    Determines Q f part := by
  obtain ⟨code, happ, hinj⟩ := h
  exact ⟨code, happ, fun c c' rest rest' hc hc' => hinj c c' rest rest' (hQ c hc) (hQ c' hc')⟩

/-- A part can be replaced by one that it determines. -/
theorem Determines.map {f : γ → Hasher → Hasher} {part : γ → α} {part' : γ → β} (h : Determines P f part)
    (hpart : ∀ c c', part c = part c' → part' c = part' c') : Determines P f part' := by
  obtain ⟨code, happ, hinj⟩ := h
  refine ⟨code, happ, fun c c' rest rest' hc hc' heq => ?_⟩
  have hboth := hinj c c' rest rest' hc hc' heq
  exact ⟨hpart c c' hboth.1, hboth.2⟩

/-- One absorption after another. -/
theorem Determines.comp {f g : γ → Hasher → Hasher} {part : γ → α} {part' : γ → β} (hf : Determines P f part)
    (hg : Determines P g part') : Determines P (fun c h => g c (f c h)) fun c => (part c, part' c) := by
  obtain ⟨code, happ, hinj⟩ := hf
  obtain ⟨code', happ', hinj'⟩ := hg
  refine ⟨fun c => code c ++ code' c, fun c h => by rw [happ', happ, List.append_assoc], ?_⟩
  intro c c' rest rest' hc hc' heq
  rw [List.append_assoc, List.append_assoc] at heq
  have hfirst := hinj _ _ _ _ hc hc' heq
  have hsecond := hinj' _ _ _ _ hc hc' hfirst.2
  exact ⟨Prod.ext hfirst.1 hsecond.1, hsecond.2⟩

variable {P : α → Prop}

theorem Determines.of_comp {f : α → Hasher → Hasher} {part : α → β} (h : Determines P f part)
    (get : γ → α) : Determines (fun c => P (get c)) (fun c => f (get c)) fun c => part (get c) := by
  obtain ⟨code, happ, hinj⟩ := h
  exact ⟨fun c => code (get c), fun c h => happ (get c) h,
    fun c c' rest rest' => hinj (get c) (get c') rest rest'⟩

theorem leBytes_injective {n v w : ℕ} (hv : v < 256 ^ n) (hw : w < 256 ^ n)
    (h : LittleEndian.leBytes n v = LittleEndian.leBytes n w) : v = w := by
  induction n generalizing v w with
  | zero => omega
  | succ n ih =>
    rw [pow_succ] at hv hw
    obtain ⟨hb, hrest⟩ := List.cons.inj h
    have hdiv := ih (Nat.div_lt_of_lt_mul (by omega)) (Nat.div_lt_of_lt_mul (by omega)) hrest
    have hmod : v % 256 = w % 256 := by simpa [UInt8.toNat_ofNat'] using congrArg UInt8.toNat hb
    omega

/-- A field tells its value, by the length before it. -/
theorem determines_field (tag : Text) : Determines Fits (fun value h => h.field tag value) id := by
  refine ⟨fun value => LittleEndian.leBytes 8 (toUtf8 tag).length ++ toUtf8 tag ++
    LittleEndian.leBytes 8 value.length ++ value, fun value h => by simp [field], ?_⟩
  intro value value' rest rest' hv hv' heq
  simp only [List.append_assoc, List.append_cancel_left_eq] at heq
  obtain ⟨hlength, hrest⟩ := List.append_inj heq (by simp)
  exact List.append_inj hrest (leBytes_injective hv hv' hlength)

theorem toUtf8_injective {a b : Text} (h : toUtf8 a = toUtf8 b) : a = b := by
  have hb := fromUtf8_toUtf8 b
  rw [← h, fromUtf8_toUtf8] at hb
  exact Option.some.inj hb

theorem determines_text (tag : Text) :
    Determines (fun value => Fits (toUtf8 value)) (fun value h => h.text tag value) id :=
  ((determines_field tag).of_comp toUtf8).map fun _ _ => toUtf8_injective

theorem determines_nested (tag : Text) : Determines (fun _ => True) (fun value h => h.nested tag value) id := by
  refine (((determines_field tag).of_comp Digest.bytes).map fun d d' h => ?_).mono fun d _ => ?_
  · cases d
    cases d'
    exact Digest.mk.injEq .. ▸ h
  · rw [Fits, d.length_eq]
    omega

theorem determines_count (tag : Text) : Determines (· < 2 ^ 64) (fun value h => h.count tag value) id := by
  obtain ⟨code, happ, hinj⟩ := (determines_field tag).of_comp (LittleEndian.leBytes 8)
  refine ⟨code, happ, fun v v' rest rest' hv hv' heq => ?_⟩
  have hboth := hinj v v' rest rest' (by simp [Fits]) (by simp [Fits]) heq
  exact ⟨leBytes_injective (by simpa using hv) (by simpa using hv') hboth.1, hboth.2⟩

/-- Codes in a row tell a part of as many items as there are, when one code tells it of one item. -/
theorem flatMap_determines {code : α → List UInt8} {part : α → β} {rest rest' : List UInt8}
    (hinj : ∀ a a' rest rest', P a → P a' → code a ++ rest = code a' ++ rest' → part a = part a' ∧ rest = rest')
    {items items' : List α} (hlength : items.length = items'.length) (hi : ∀ a ∈ items, P a) (hi' : ∀ a ∈ items', P a)
    (heq : items.flatMap code ++ rest = items'.flatMap code ++ rest') :
    items.map part = items'.map part ∧ rest = rest' := by
  induction items generalizing items' with
  | nil =>
    obtain rfl := List.length_eq_zero_iff.mp hlength.symm
    exact ⟨rfl, heq⟩
  | cons a items ih =>
    cases items' with
    | nil => cases hlength
    | cons a' items' =>
      rw [List.flatMap_cons, List.flatMap_cons, List.append_assoc, List.append_assoc] at heq
      have hfirst := hinj _ _ _ _ (hi a List.mem_cons_self) (hi' a' List.mem_cons_self) heq
      have hothers := ih (Nat.succ.inj hlength) (fun b hb => hi b (List.mem_cons_of_mem _ hb))
        (fun b hb => hi' b (List.mem_cons_of_mem _ hb)) hfirst.2
      exact ⟨congrArg₂ List.cons hfirst.1 hothers.1, hothers.2⟩

/-- A counted list tells a part of its items, when what is absorbed of each tells it of the item. -/
theorem determines_absorbAll_part {absorb : α → Hasher → Hasher} {part : α → β} (tag : Text)
    (h : Determines P absorb part) :
    Determines (fun items => Fits items ∧ ∀ a ∈ items, P a)
      (fun items h => CacheKeyInputs.absorbAll tag items absorb h) (List.map part) := by
  obtain ⟨count, happ, hinj⟩ := (determines_count tag).of_comp List.length (γ := List α)
  obtain ⟨code, happ', hinj'⟩ := h
  have hfold : ∀ (items : List α) (h : Hasher),
      (items.foldl (fun hasher item => absorb item hasher) h).absorbed = h.absorbed ++ items.flatMap code := by
    intro items
    induction items with
    | nil => simp
    | cons a items ih => simp [ih, happ']
  refine ⟨fun items => count items ++ items.flatMap code, fun items h => ?_, ?_⟩
  · simp only [CacheKeyInputs.absorbAll, hfold, happ, List.append_assoc]
  · intro items items' rest rest' hi hi' heq
    rw [List.append_assoc, List.append_assoc] at heq
    have hlength := hinj _ _ _ _ hi.1 hi'.1 heq
    exact flatMap_determines hinj' hlength.1 hi.2 hi'.2 hlength.2

/-- A counted list tells its items, when what is absorbed of each tells the item. -/
theorem determines_absorbAll {absorb : α → Hasher → Hasher} (tag : Text) (h : Determines P absorb id) :
    Determines (fun items => Fits items ∧ ∀ a ∈ items, P a)
      (fun items h => CacheKeyInputs.absorbAll tag items absorb h) id :=
  (determines_absorbAll_part tag h).map fun _ _ hmap => by simpa using hmap

end Hasher

open Hasher

theorem determines_fileDigest (tag : Text) :
    Determines (fun f : FileDigest => Fits f.path) (fun f => f.absorb tag) id := by
  have hpath := (determines_field tag).of_comp FileDigest.path
  have hcontent := ((determines_nested "content".toList).of_comp FileDigest.content).mono
    (Q := fun f : FileDigest => Fits f.path) fun _ _ => trivial
  refine (hpath.comp hcontent).map fun f f' h => ?_
  obtain ⟨hp, hc⟩ := Prod.mk.inj h
  cases f
  cases f'
  exact FileDigest.mk.injEq .. ▸ ⟨hp, hc⟩

namespace CacheKeyInputs

def FilesFit (files : List FileDigest) : Prop := Fits files ∧ ∀ f ∈ files, Fits f.path

def TextsFit (texts : List Text) : Prop := Fits texts ∧ ∀ text ∈ texts, Fits (toUtf8 text)

/-- Every length is one that the machine can count, as any value in memory has it. -/
structure Addressable (i : CacheKeyInputs) : Prop where
  compiler : Fits (toUtf8 i.compiler)
  compilerFlags : TextsFit i.compilerFlags
  environment : Fits i.environment ∧ ∀ e ∈ i.environment, Fits (toUtf8 e.1) ∧ Fits e.2
  jdkIdentity : Fits (toUtf8 i.jdkIdentity)
  sources : FilesFit i.sources
  classpath : FilesFit i.classpath
  friendPaths : FilesFit i.friendPaths
  dependencyAbis : Fits i.dependencyAbis ∧ ∀ d ∈ i.dependencyAbis, Fits (toUtf8 d.1)
  plugins : FilesFit i.plugins
  pluginOptions : TextsFit i.pluginOptions
  target : Fits (toUtf8 i.target)

theorem determines_environment : Determines (fun e : Text × List UInt8 => Fits (toUtf8 e.1) ∧ Fits e.2)
    (fun e h => (h.text "env-name".toList e.1).field "env-value".toList e.2) id :=
  (((determines_text _).of_comp Prod.fst).mono fun _ h => h.1).comp
    (((determines_field _).of_comp Prod.snd).mono fun _ h => h.2)

theorem determines_dependency : Determines (fun d : ModuleId × AbiFingerprint => Fits (toUtf8 d.1))
    (fun d h => (h.text "dependency".toList d.1).nested "abi".toList d.2.digest) id := by
  have habi := ((determines_nested "abi".toList).of_comp fun d : ModuleId × AbiFingerprint => d.2.digest).mono
    (Q := fun d => Fits (toUtf8 d.1)) fun _ _ => trivial
  refine (((determines_text _).of_comp Prod.fst).comp habi).map fun d d' h => ?_
  obtain ⟨hid, hdigest⟩ := Prod.mk.inj h
  exact Prod.ext hid (AbiFingerprint.mk.injEq .. ▸ hdigest)

theorem determines_texts (tag itemTag : Text) (get : CacheKeyInputs → List Text)
    (h : ∀ i, Addressable i → TextsFit (get i)) :
    Determines Addressable
      (fun i hasher => absorbAll tag (get i) (fun text h => h.text itemTag text) hasher) get :=
  ((determines_absorbAll tag (determines_text itemTag)).of_comp get).mono h

theorem determines_files (tag itemTag : Text) (get : CacheKeyInputs → List FileDigest)
    (h : ∀ i, Addressable i → FilesFit (get i)) :
    Determines Addressable (fun i hasher => absorbAll tag (get i) (·.absorb itemTag) hasher) get :=
  ((determines_absorbAll tag (determines_fileDigest itemTag)).of_comp get).mono h

/-- The absorbed bytes tell every input. -/
theorem determines_absorb : Determines Addressable absorb id := by
  have hcompiler := ((determines_text "compiler".toList).of_comp compiler).mono (Q := Addressable) fun _ h => h.compiler
  have hflags := determines_texts "flags".toList "flag".toList compilerFlags fun _ h => h.compilerFlags
  have henvironment := ((determines_absorbAll "environment".toList determines_environment).of_comp environment).mono
    (Q := Addressable) fun _ h => h.environment
  have hjdk := ((determines_text "jdk".toList).of_comp jdkIdentity).mono (Q := Addressable) fun _ h => h.jdkIdentity
  have hsources := determines_files "sources".toList "source".toList sources fun _ h => h.sources
  have hclasspath := determines_files "classpath".toList "classpath".toList classpath fun _ h => h.classpath
  have hfriends := determines_files "friends".toList "friend".toList friendPaths fun _ h => h.friendPaths
  have hdependencies := ((determines_absorbAll "dependencies".toList determines_dependency).of_comp
    dependencyAbis).mono (Q := Addressable) fun _ h => h.dependencyAbis
  have hplugins := determines_files "plugins".toList "plugin".toList plugins fun _ h => h.plugins
  have hoptions := determines_texts "plugin-options".toList "plugin-option".toList pluginOptions
    fun _ h => h.pluginOptions
  have htarget := ((determines_text "target".toList).of_comp target).mono (Q := Addressable) fun _ h => h.target
  refine ((((((((((hcompiler.comp hflags).comp henvironment).comp hjdk).comp hsources).comp hclasspath).comp
    hfriends).comp hdependencies).comp hplugins).comp hoptions).comp htarget).map fun i i' h => ?_
  cases i
  cases i'
  simpa [and_assoc] using h

theorem absorb_injective {i i' : CacheKeyInputs} (hi : i.Addressable) (hi' : i'.Addressable)
    (h : (i.absorb Hasher.new).absorbed = (i'.absorb Hasher.new).absorbed) : i = i' := by
  obtain ⟨code, happ, hinj⟩ := determines_absorb
  rw [happ, happ, List.append_cancel_left_eq] at h
  exact (hinj i i' [] [] hi hi' (by rw [h])).1

/-- Two values whose key computations absorb the same bytes are equal in every field. A value in memory has
lengths that the machine can count. -/
theorem key_stream_injective (i i' : CacheKeyInputs) (hi : i.Addressable) (hi' : i'.Addressable)
    (h : (i.absorb Hasher.new).absorbed = (i'.absorb Hasher.new).absorbed) : i = i' :=
  absorb_injective hi hi' h

/-- A flag that holds the separator of `render`. -/
def newlineInputs : CacheKeyInputs where
  compiler := "krusty".toList
  compilerFlags := ["-module-name=a\nb".toList]
  environment := [("KRUSTY_LANGUAGE_VERSION".toList, [])]
  jdkIdentity := "21".toList
  sources := [⟨[0x61], ⟨List.replicate 32 0, by decide⟩⟩]
  classpath := []
  friendPaths := []
  dependencyAbis := []
  plugins := []
  pluginOptions := ["".toList]
  target := "21".toList

theorem key_stream_injective_newline : newlineInputs = newlineInputs := by
  have haddressable : newlineInputs.Addressable := by
    constructor <;> simp only [Fits, TextsFit, FilesFit] <;> decide
  exact key_stream_injective newlineInputs newlineInputs haddressable haddressable rfl

end CacheKeyInputs

end Krusty.Build
