/-
# Formats of reports

A report is written in one of five formats. Two of them are pages of HTML.
-/
import SourceAudit.Html.Escape

namespace SourceAudit.Report

inductive Format where
  | markdown
  | html
  | json
  | pdf
  | text
deriving DecidableEq, Repr, Inhabited

namespace Format

def all : List Format :=
  [.markdown, .html, .json, .pdf, .text]

def label : Format → String
  | .markdown => "Markdown"
  | .html => "HTML"
  | .json => "JSON"
  | .pdf => "PDF"
  | .text => "TXT"

def ofLabel? (s : String) : Option Format :=
  all.find? fun f => f.label == s

/-- The format that a user names, Markdown for a name that is not known. -/
def ofName (s : String) : Format :=
  match Text.lower (Text.strip s) with
  | "html" => .html
  | "json" => .json
  | "pdf" => .pdf
  | "txt" | "text" => .text
  | _ => .markdown

def suffix : Format → String
  | .markdown => ".md"
  | .html => ".html"
  | .json => ".json"
  | .pdf => ".pdf"
  | .text => ".txt"

def templateName : Format → String
  | .html => "html.html"
  | .pdf => "pdf.html"
  | .markdown | .json | .text => "markdown.md"

end Format

/-- What values are written into: HTML or plain text. -/
inductive Medium where
  | html
  | plain
deriving DecidableEq, Repr, Inhabited

def Medium.write : Medium → String → String
  | .html, s => Html.escape s
  | .plain, s => s

def Format.medium : Format → Medium
  | .html | .pdf => .html
  | .markdown | .json | .text => .plain

end SourceAudit.Report
