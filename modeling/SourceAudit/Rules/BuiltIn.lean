/-
# The built-in rules

The rules that are in use when no directory of rules is given: dangerous calls,
queries built from variables, weak upload checks and the like, for PHP, Python
and Java.
-/
import SourceAudit.Rules.Rule

namespace SourceAudit.RuleSet

def rule (id name severity pattern description : String) (flags skipContexts : List String) : Rule where
  id := .str id
  name := .str name
  kind := .str "REGEX"
  pattern := .str pattern
  severity := .str severity
  description := .str description
  flags := .ofStrings flags
  skipContexts := .ofStrings skipContexts
  fullFile := false

def javaRules : List Rule := [
  rule "JAVA001" "命令执行(Runtime.getRuntime)" "High"
    "Runtime\\.getRuntime\\(\\)\\.exec\\("
    "检测到Runtime.getRuntime().exec()调用，可能导致命令执行"
    [] [],
  rule "JAVA002" "SQL注入风险" "High"
    "createStatement\\(\\)\\.execute\\("
    "检测到直接执行SQL语句，可能存在SQL注入风险"
    [] [],
  rule "JAVA003" "反序列化漏洞" "High"
    "readObject\\s*\\("
    "检测到readObject方法调用，可能存在反序列化漏洞"
    [] []]

/-- The pattern of a call with a variable or a suspicious command. -/
def callOf (function : String) : String :=
  "(?<!->)(?<!::)\\b" ++ function ++ "\\s*\\(\\s*(\\$|[\\\"'][^\\\"']*(wget|curl|nc|ncat|netcat|bash|sh|php|" ++
    "python|perl|ruby|powershell|cmd|certutil|base64_decode|hex2bin|gzuncompress|gzinflate|str_rot13|/bin/sh|" ++
    "/bin/bash))"

def phpRules : List Rule := [
  rule "PHP001" "危险函数调用(eval/assert)" "Critical"
    ("\\b(eval|assert)\\s\x7b0,10\x7d\\(\\s\x7b0,10\x7d\\$\\w\x7b1,20\x7d((\\[\"|\\[)\\$" ++
      "\x7b0,1\x7d[\\w\\[\\]\"']\x7b0,30\x7d)\x7b0,1\x7d")
    "检测到eval或assert函数调用，可能导致代码注入"
    [] ["string", "comment"],
  rule "PHP002" "文件包含漏洞(include/require)" "High"
    ("\\b(include|require)(_once)?\\s*(\\(|\\s+)\\s*(\\$_(GET|POST|REQUEST|COOKIE|FILES|" ++
      "SERVER)|\\$\\w+\\s*\\[)")
    "检测到include/require直接使用请求变量或数组变量，可能存在文件包含漏洞；普通变量源头由污点分析判断"
    [] ["string", "comment"],
  rule "PHP003" "命令执行函数(exec/shell_exec等)" "High"
    (callOf "(exec|shell_exec|passthru|proc_open|popen)")
    "检测到命令执行函数调用，参数为变量或包含可疑命令特征，可能导致命令执行"
    [] ["string", "comment"],
  rule "PHP004" "系统命令函数(system)" "High"
    (callOf "system")
    "检测到system函数调用，参数为变量或包含可疑命令特征，可能导致命令执行"
    [] ["string", "comment"],
  rule "PHP005" "反序列化漏洞(unserialize)" "High"
    ("\\bunserialize\\s*\\(\\s*(\\$_(GET|POST|REQUEST|COOKIE|FILES|SERVER)|\\$this->requ" ++
      "est->|request\\s*\\(|input\\s*\\()")
    "检测到unserialize直接使用请求输入，可能存在反序列化漏洞；变量源头由污点分析判断"
    [] ["string", "comment"],
  rule "PHP006" "SQL注入漏洞" "High"
    ("(select|delete|update|insert)\\s+.*?(from|where|set)\\s+.*?=\\s*\\$\\w\x7b1,20\x7d" ++
      "((\\[\"|\\[)\\$\x7b0,1\x7d[\\w\\[\\]\"']\x7b0,30\x7d)\x7b0,1\x7d")
    "SQL语句select中条件变量无单引号保护，可能存在SQL注入漏洞"
    [] ["string", "comment"],
  rule "PHP007" "php版本信息泄露phpinfo()" "Low"
    "\\bphpinfo\\s\x7b0,5\x7d\\(\\s\x7b0,5\x7d\\)"
    "检测到phpinfo()，可能存在php版本信息泄露"
    [] ["string", "comment"],
  rule "PHP008" "动态函数调用风险" "High"
    ("\\bcall_user_func(_array)\x7b0,1\x7d\\(\\s\x7b0,5\x7d\\$\\w\x7b1,15\x7d((\\[\"|\\[" ++
      ")\\$\x7b0,1\x7d[\\w\\[\\]\"']\x7b0,30\x7d)\x7b0,1\x7d")
    "检测到call_user_func函数使用变量作为函数名，可能存在代码执行风险"
    [] ["string", "comment"],
  rule "PHP009" "变量覆盖漏洞" "High"
    ("\\$\\$\x7b0,1\x7d\\$\\w\x7b1,20\x7d((\\[\"|\\[)\\$\x7b0,1\x7d[\\w\\[\\]\"']\x7b0,3" ++
      "0\x7d)\x7b0,1\x7d\\s\x7b0,4\x7d=\\s\x7b0,4\x7d.\x7b0,20\x7d\\$\\w\x7b1,20\x7d((\\[" ++
      "\"|\\[)\\$\x7b0,1\x7d[\\w\\[\\]\"']\x7b0,30\x7d)\x7b0,1\x7d")
    "检测到变量覆盖漏洞，用户输入可能覆盖关键变量"
    [] ["string", "comment"],
  rule "PHP010" "文件上传漏洞" "High"
    ("\\bmove_uploaded_file\\s*\\([^,]+,\\s*[^;\\n]*\\$_FILES\\s*\\[[^\\]]+\\]\\s*\\[[\"" ++
      "']name[\"']\\]")
    "检测到上传文件保存路径直接使用原始文件名，可能存在危险文件上传或路径污染风险"
    [] ["string", "comment"],
  rule "PHP011" "反序列化 POP Gadget 候选魔术方法" "High"
    ("function\\s+__(wakeup|destruct|toString|call|callStatic|get|set|invoke|unserialize" ++
      ")\\s*\\([^)]*\\)\\s*\\\x7b")
    "检测到 PHP 魔术方法，可能作为反序列化 POP 链 gadget 候选；该规则偏向不漏报，需要结合 unserialize 入口、属性可控性和方法体人工复核"
    [] ["string", "comment"],
  rule "PHP_UPLOAD_TRUST_CLIENT_MIME" "文件上传信任客户端 MIME" "High"
    ("\\$\\w*(?:mime|type)\\w*\\s*=\\s*\\$\\w+\\[['\\\"]type['\\\"]\\]|\\$_FILES\\s*\\[[" ++
      "^\\]]+\\]\\s*\\[['\\\"]type['\\\"]|\\bin_array\\s*\\(\\s*\\$\\w*(?:mime|type)\\w*" ++
      "\\s*,\\s*\\$\\w*allow\\w*Mime")
    "检测到上传校验使用客户端提供的 MIME 类型，攻击者可伪造 Content-Type 绕过"
    ["IGNORECASE"] ["string", "comment"],
  rule "PHP_UPLOAD_WEAK_EXTENSION_FILTER" "文件上传弱后缀过滤" "High"
    ("pathinfo\\s*\\(\\s*\\$\\w*(?:name|file|path)\\w*[^;\\n]*PATHINFO_EXTENSION\\)|\\be" ++
      "xplode\\s*\\(\\s*['\\\"]\\.['\\\"]\\s*,\\s*\\$\\w*(?:name|file|path)\\w*\\s*\\)|\\" ++
      "b(?:deny|blacklist)\\w*\\s*=\\s*\\[[^\\]]*(?:php|phtml|php3|php4|php5)")
    "检测到上传流程使用后缀黑名单或末尾后缀判断，可能被大小写、双后缀、解析差异或截断绕过"
    ["IGNORECASE"] ["string", "comment"],
  rule "PHP_UPLOAD_WEAK_CONTENT_CHECK" "文件上传弱内容检测" "High"
    ("file_get_contents\\s*\\(\\s*\\$\\w+\\s*\\)[\\s\\S]\x7b0,240\x7d\\bpreg_match\\s*\\" ++
      "(\\s*['\\\"]/\\^.*(?:GIF89a|GIF87a|PNG|<\\\\\\?php)")
    "检测到上传流程只检查文件头或 PHP 起始标签，可能被短标签、图片马或多态内容绕过"
    ["IGNORECASE"] ["comment"],
  rule "PHP_UPLOAD_HTACCESS_ALLOWED" "允许上传 .htaccess" "High"
    "\\$\\w+\\s*=\x7b0,2\x7d\\s*['\\\"]\\.htaccess['\\\"]|\\.htaccess"
    "检测到上传流程允许 .htaccess，可能改变目录解析规则导致图片马或脚本执行"
    ["IGNORECASE"] ["comment"],
  rule "PHP_RATE_LIMIT_HEADER_BYPASS" "基于可伪造请求头的限速" "Medium"
    ("\\$_SERVER\\s*\\[['\\\"]HTTP_(?:X_FORWARDED_FOR|X_REAL_IP|CLIENT_IP)['\\\"]\\][\\s" ++
      "\\S]\x7b0,500\x7d(?:ratelimit|limit|count|maxReq|md5\\s*\\(\\s*\\$ip)")
    "检测到限速逻辑信任 X-Forwarded-For/X-Real-IP 等可伪造请求头，可能被爆破绕过"
    ["IGNORECASE"] ["comment"]]

def pythonRules : List Rule := [
  rule "PY001" "危险函数调用(exec)" "High"
    "\\bexec\\s*\\("
    "检测到exec函数调用，可能导致代码执行"
    [] [],
  rule "PY002" "危险函数调用(eval)" "Critical"
    "\\beval\\s*\\("
    "检测到eval函数调用，可能导致代码注入"
    [] [],
  rule "PY003" "操作系统命令执行" "High"
    "\\bos\\.system\\s*\\("
    "检测到os.system函数调用，可能导致命令执行"
    [] [],
  rule "PY004" "子进程执行" "High"
    "\\bsubprocess\\.call\\s*\\("
    "检测到subprocess.call函数调用，可能导致命令执行"
    [] []]

def builtIn : RuleSet :=
  [("java", javaRules), ("php", phpRules), ("python", pythonRules)]

end SourceAudit.RuleSet
