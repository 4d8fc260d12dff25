import TypedApi.Config.Setting

/-! Settings from YAML text. -/
namespace TypedApi

open Yaml (Decoder Layout field)

namespace OpenApi

def Server.yaml : Layout Server where
  init := { url := "" }
  required := ["url"]
  fields := [
    field "url" Decoder.text fun s v => { s with url := v },
    field "description" (Decoder.option Decoder.text) fun s v => { s with description := v }]

end OpenApi

def Versioning.yaml : Layout Versioning where
  init := {}
  fields := [
    field "mode" (Decoder.choice VersionMode.named?) fun v m => { v with mode := m },
    field "headerName" Decoder.text fun v s => { v with headerName := s },
    field "prefix" Decoder.text fun v s => { v with mark := s }]

def DocumentOptions.yaml : Layout DocumentOptions where
  init := {}
  fields := [
    field "title" Decoder.text fun o v => { o with title := v },
    field "version" Decoder.text fun o v => { o with version := v },
    field "description" (Decoder.option Decoder.text) fun o v => { o with description := v },
    field "servers" (Decoder.list OpenApi.Server.yaml.decode) fun o v => { o with servers := v },
    field "versioning" Versioning.yaml.decode fun o v => { o with versioning := v }]

namespace Config

def Input.yaml : Layout Input where
  init := { source := "" }
  required := ["source"]
  fields := [
    field "format" (Decoder.option Decoder.text) fun i v => { i with format := v },
    field "source" Decoder.text fun i v => { i with source := v }]

def Generation.yaml : Layout Generation where
  init := { generator := "" }
  required := ["generator"]
  fields := [
    field "generator" Decoder.text fun g v => { g with generator := v },
    field "outputDir" (Decoder.option Decoder.text) fun g v => { g with outputDir := v },
    field "enabled" Decoder.bool fun g v => { g with enabled := v },
    field "template" (Decoder.option Decoder.text) fun g v => { g with template := v },
    field "options" (Decoder.map Setting.ofNode) fun g v => { g with options := v }]

def Hooks.yaml : Layout Hooks where
  init := {}
  fields := [
    field "beforeGenerate" (Decoder.list Decoder.text) fun h v => { h with beforeGenerate := v },
    field "afterGenerate" (Decoder.list Decoder.text) fun h v => { h with afterGenerate := v }]

def Formatter.yaml : Layout Formatter where
  init := { command := "" }
  required := ["command"]
  fields := [
    field "command" Decoder.text fun f v => { f with command := v },
    field "args" (Decoder.list Decoder.text) fun f v => { f with args := v }]

def yaml : Layout Config where
  init := { version := "" }
  required := ["version"]
  fields := [
    field "version" Decoder.text fun c v => { c with version := v },
    field "input" (Decoder.option Input.yaml.decode) fun c v => { c with input := v },
    field "output" (Decoder.option Decoder.text) fun c v => { c with output := v },
    field "document" DocumentOptions.yaml.decode fun c v => { c with document := v },
    field "generations" (Decoder.list Generation.yaml.decode) fun c v =>
      { c with generations := v },
    field "hooks" Hooks.yaml.decode fun c v => { c with hooks := v },
    field "formatter" (Decoder.option Formatter.yaml.decode) fun c v => { c with formatter := v }]

def ofText? (text : String) : Option Config := yaml.decode.run? text

end Config
end TypedApi
