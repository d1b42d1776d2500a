import Converge.Config.Problem
import Converge.Yaml.Decode

/-!
# Configurations as documents

How a configuration is written down: which fields its records have, which of them may be left
out, and what is meant then.
-/

namespace Converge

open Yaml (Decoder Document Misfit)
open Yaml.Decoder (Slot)

/-- The text of a scalar as a text. -/
def decodeText : Decoder String := Decoder.text "a string"

/-- The text of a scalar as a path. -/
def decodePath : Decoder Pathname := fun d place n =>
  Pathname.mk <$> Decoder.text "path string" d place n

def Defaults.fields : List (Slot Defaults) := [
  .free "registry" (.optional decodeText) fun s v => { s with registry := v },
  .free "kube_context" (.optional decodeText) fun s v => { s with kubeContext := v },
  .free "namespace" (.optional decodeText) fun s v => { s with space := v }]

def Defaults.decode : Decoder Defaults := .record "struct Defaults" fields ⟨none, none, none⟩

def RunOptions.fields : List (Slot RunOptions) := [
  .free "max_concurrency" (.optional (.natural "usize")) fun s v => { s with limit := v },
  .free "satisfied_policy"
    (.choice ([Policy.skipSubtree, .selfOnly].map fun p => (p.name, p)))
    fun s v => { s with policy := v }]

def RunOptions.decode : Decoder RunOptions :=
  .record "struct ExecutorOptions" fields ⟨none, .skipSubtree⟩

def SourceSpec.fields : List (Slot SourceSpec) := [
  .required "url" decodeText fun s v => { s with url := v },
  .required "rev" decodeText fun s v => { s with rev := v },
  .required "dir" decodePath fun s v => { s with dir := v }]

def SourceSpec.decode : Decoder SourceSpec := .record "struct GitSpec" fields default

def ImageSpec.fields : List (Slot ImageSpec) := [
  .required "name" decodeText fun s v => { s with name := v },
  .required "repository" decodeText fun s v => { s with repository := v },
  .required "tag" decodeText fun s v => { s with tag := v },
  .free "context" decodePath fun s v => { s with context := v },
  .free "dockerfile" (.optional decodePath) fun s v => { s with dockerfile := v },
  .free "build_args" (.table decodeText) fun s v => { s with buildArgs := .ofList v },
  .free "source" (.optional SourceSpec.decode) fun s v => { s with source := v }]

def ImageSpec.decode : Decoder ImageSpec :=
  .record "struct ImageSpec" fields ⟨"", "", "", Config.defaultContext, none, .empty, none⟩

def ManifestSpec.fields : List (Slot ManifestSpec) := [
  .required "name" decodeText fun s v => { s with name := v },
  .required "path" decodePath fun s v => { s with path := v },
  .free "kube_context" (.optional decodeText) fun s v => { s with kubeContext := v },
  .free "namespace" (.optional decodeText) fun s v => { s with space := v },
  .free "images" (.list decodeText) fun s v => { s with images := v }]

def ManifestSpec.decode : Decoder ManifestSpec := .record "struct ManifestSpec" fields default

def UnitSpec.fields : List (Slot UnitSpec) := [
  .required "name" decodeText fun s v => { s with name := v },
  .free "images" (.list ImageSpec.decode) fun s v => { s with images := v },
  .free "manifests" (.list ManifestSpec.decode) fun s v => { s with manifests := v }]

def UnitSpec.decode : Decoder UnitSpec := .record "struct UnitSpec" fields ⟨"", [], []⟩

namespace Config

/-- A configuration that says nothing. -/
def vacant : Config := ⟨⟨none, none, none⟩, ⟨none, .skipSubtree⟩, [], .empty⟩

def fields : List (Slot Config) := [
  .free "defaults" Defaults.decode fun s v => { s with defaults := v },
  .free "executor_options" RunOptions.decode fun s v => { s with options := v },
  .free "units" (.list UnitSpec.decode) fun s v => { s with units := v }]

/-- The configuration that a document describes; one without content describes nothing. -/
def ofDocument (d : Document) : Except Misfit Config :=
  match d.root with
  | none => .ok vacant
  | some n =>
      (Decoder.record "struct Config" fields vacant d .root n).run'
        (Yaml.Value.maxRepeats * n.weight)

/-- The configuration that a text describes, which has to be the only one in it. -/
def ofText (s : String) : Except Unfit Config :=
  match Document.ofText s with
  | .error .malformed => .error .malformed
  | .error .unknownName => .error (.misfit "unknown anchor" false)
  | .ok d =>
      match ofDocument d with
      | .error m => .error (.misfit m.text (Yaml.Value.ofDocument? d).isSome)
      | .ok c =>
          if d.isAlone then .ok c
          else
            .error (.misfit
              "deserializing from YAML containing more than one document is not supported" false)

end Config

end Converge
